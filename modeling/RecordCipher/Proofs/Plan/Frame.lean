import RecordCipher.Proofs.Plan.Writing
import RecordCipher.Proofs.Tree.Document
import RecordCipher.Proofs.Tree.Structured

/-!
# The frame of writing

Writing along a plan looks up replacements on its way down, at locations that depend on what it
has written above. The locations that have a replacement are written. At or below a written
location stands what the last replacement on the way to it holds; everywhere else the record is
as it was. Replacements that are never looked up do not matter.

Since trees are determined by their heads at all locations, this says what the record that comes
out is.

## Main definitions

* `LooksUp`, `Plan.LooksUp`: the locations at which replacements are looked up
* `Plan.Writes`: the locations that are written, with what is written there

## Main results

* `headAt_writeBelow`: the record is as it was where nothing was written at or above
* `headAt_writeBelow_of_written`: what stands at and below a written location
* `writeBelow_congr`: only the replacements that are looked up matter
* `Plan.write_frame`: all of this for a plan
-/

namespace RecordCipher

variable {α : Type} [Tree α]

/-- The locations below a node at which writing along tasks looks up replacements. Below a
location that is looked up itself, these are the locations below what stands there then. -/
def LooksUp (replacements : Replacements α) : List Task → Location → α → Location → Prop
  | [], _, _, _ => False
  | _ :: _, _, _, [] => False
  | task :: rest, here, node, step :: below =>
    task.LooksUp node step ∧ (below = [] ∨
      ∃ child, settled replacements here node step = some child ∧
        Tree.isNull child = false ∧ LooksUp replacements rest (here ++ [step]) child below)

namespace Plan

variable (plan : Plan) (root : α) (replacements : Replacements α)

/-- The locations at which writing along a plan looks up replacements; without tasks this is the
root. -/
def LooksUp (l : Location) : Prop :=
  match plan.tasks with
  | [] => l = Location.root
  | task :: rest =>
    RecordCipher.LooksUp replacements (task :: rest) Location.root root l

/-- The locations that writing along a plan writes, with what it writes there. -/
def Writes (l : Location) (value : α) : Prop :=
  plan.LooksUp root replacements l ∧ replacements.get? l.text = some value

end Plan

/-- The locations where replacements are looked up are along the tasks. -/
theorem LooksUp.along {replacements : Replacements α} {tasks : List Task} {here l : Location}
    {node : α} (h : LooksUp replacements tasks here node l) : Along tasks l := by
  induction tasks generalizing here node l with
  | nil => exact h.elim
  | cons task rest ih =>
    cases l with
    | nil => trivial
    | cons step below =>
      obtain ⟨hlooks, hbelow⟩ := h
      refine ⟨hlooks.1, ?_⟩
      rcases hbelow with rfl | ⟨child, -, -, hbelow⟩
      · cases rest <;> trivial
      · exact ih hbelow

variable [LawfulTree α] {replacements : Replacements α}

/-! ## Below one node -/

section Below

variable {tasks : List Task} {here : Location} {node out : α}

/-- Where nothing is written at or above, everything is as it was. -/
theorem headAt_writeBelow (hR : replacements.AllSound) (hs : Sound node)
    (h : writeBelow replacements tasks here node = .ok out) (l : Location)
    (hnone : ∀ w, w <+: l → LooksUp replacements tasks here node w →
      replacements.get? (here ++ w).text = none) : headAt l out = headAt l node := by
  -- Induction on the tasks. Going down, the location loses its first step at each of them.
  induction tasks generalizing here node out l with
  | nil =>
    obtain rfl : node = out := by simpa [writeBelow] using h
    rfl
  | cons task rest ih =>
    have below := writeBelow_cons hR hs h
    cases l with
    | nil => rw [headAt_nil, headAt_nil, below.head_eq]
    | cons step l =>
      by_cases hlooks : task.LooksUp node step
      · have hget : replacements.get? (here ++ [step]).text = none := by
          apply hnone [step] (by simp)
          exact ⟨hlooks, .inl rfl⟩
        obtain ⟨after, hafter, hdesc⟩ := below.descends step hlooks
        -- nothing was written here, and the others go on with what was there before
        have hbefore := below.found step hlooks hget
        rw [headAt_cons, headAt_cons, hafter, hbefore]
        generalize hc : settled replacements here node step = before at hbefore hdesc
        cases hdesc with
        | absent => rfl
        | null null => rfl
        | @below child child' notNull written =>
          apply ih (sound_settled hR hs hc) written
          intro w hw hlooks'
          have hstep := hnone (step :: w) (List.cons_prefix_cons.mpr ⟨rfl, hw⟩)
            ⟨hlooks, .inr ⟨child, hc, notNull, hlooks'⟩⟩
          simpa using hstep
      · -- the first task does not take the step
        exact headAt_cons_congr (below.unchanged step hlooks) l

/-- At and below a written location stands what was written there, as long as nothing is written
further down on the way. -/
theorem headAt_writeBelow_of_written (hR : replacements.AllSound) (hs : Sound node)
    (h : writeBelow replacements tasks here node = .ok out) {w : Location} {value : α}
    (hlooks : LooksUp replacements tasks here node w)
    (hvalue : replacements.get? (here ++ w).text = some value) (l : Location)
    (hlast : ∀ w', w <+: w' → w' <+: w ++ l → LooksUp replacements tasks here node w' →
      (replacements.get? (here ++ w').text).isSome → w' = w) :
    headAt (w ++ l) out = headAt l value := by
  -- Induction on the tasks, down to the one that has written the location.
  induction tasks generalizing here node out w with
  | nil => exact hlooks.elim
  | cons task rest ih =>
    cases w with
    | nil => exact hlooks.elim
    | cons step w =>
      have below := writeBelow_cons hR hs h
      obtain ⟨hstep, hrest⟩ := hlooks
      obtain ⟨after, hafter, hdesc⟩ := below.descends step hstep
      rw [List.cons_append, headAt_cons, hafter]
      rcases hrest with rfl | ⟨child, hchild, hnull, hlooks'⟩
      · -- the replacement is what the other tasks go on with
        have hc : settled replacements here node step = some value := settled_of_get? hvalue
        rw [hc] at hdesc
        cases hdesc with
        | null null => rfl
        | below notNull written =>
          -- and they write nothing on the way, since this is the last location written
          apply headAt_writeBelow hR (hR _ _ hvalue) written
          intro u hu hlooks'
          by_contra hget
          have heq : step :: u = [step] := by
            apply hlast (step :: u) (by simp) (by simpa using hu)
            · exact ⟨hstep, .inr ⟨_, hc, notNull, hlooks'⟩⟩
            · rw [← Option.ne_none_iff_isSome]
              simpa using hget
          obtain rfl : u = [] := by simpa using heq
          cases rest <;> exact hlooks'
      · -- the location is further down
        rw [hchild] at hdesc
        obtain ⟨_, rfl, written⟩ := hdesc.of_not_null hnull
        apply ih (sound_settled hR hs hchild) written hlooks' (by simpa using hvalue)
        intro w' hw hw' hlooks'' hget
        have heq : step :: w' = step :: w := by
          apply hlast (step :: w') (by simpa using hw) (by simpa using hw')
          · exact ⟨hstep, .inr ⟨child, hchild, hnull, hlooks''⟩⟩
          · simpa using hget
        simpa using heq

end Below

/-! ## Replacements that are not looked up -/

section Congr

variable {replacements' : Replacements α} {here : Location} {node out : α}

omit [LawfulTree α] in
theorem setReplacedElements_congr {positions : List Nat}
    (same : ∀ i ∈ positions,
      replacements'.get? (here.index i).text = replacements.get? (here.index i).text) :
    setReplacedElements replacements' here positions node =
      setReplacedElements replacements here positions node := by
  -- Induction on the positions, for the node that the ones before have made.
  induction positions generalizing node with
  | nil => rfl
  | cons i rest ih =>
    have others : ∀ written, setReplacedElements replacements' here rest written =
        setReplacedElements replacements here rest written := by
      intro written
      apply ih
      intro j hj
      exact same j (List.mem_cons_of_mem _ hj)
    rw [setReplacedElements, setReplacedElements, same i List.mem_cons_self]
    simp only [others]

omit [LawfulTree α] in
/-- What a task writes at a node depends on the replacements that it looks up. -/
theorem Task.write_congr {task : Task} (same : ∀ step, task.LooksUp node step →
      replacements'.get? (here ++ [step]).text = replacements.get? (here ++ [step]).text) :
    task.write replacements' here node = task.write replacements here node := by
  cases task with
  | field name =>
    have hfield : replacements'.get? (here.field name).text =
        replacements.get? (here.field name).text := by
      apply same
      exact ⟨by simp [selects], by simp⟩
    simp only [write, setReplacedField, hfield]
  | elements selection =>
    simp only [write]
    cases helems : Tree.elements? node with
    | none => rfl
    | some items =>
      have helements : setReplacedElements replacements' here
            (selection.positions items.length) node =
          setReplacedElements replacements here (selection.positions items.length) node := by
        apply setReplacedElements_congr
        intro i hi
        apply same
        obtain ⟨hsel, hlt⟩ := (Selection.mem_positions selection items.length i).mp hi
        refine ⟨hsel, ?_⟩
        rintro j ⟨⟩
        simp [Tree.element?, helems, hlt]
      simp only [helements]

variable {rewrite rewrite' : Location → α → Except ResolutionError α}

omit [LawfulTree α] in
theorem rewriteItems_congr {selection : Selection} {i : Nat} {items : List α}
    (same : ∀ k item, items[k]? = some item → selection.selects (i + k) = true →
      Tree.isNull item = false →
        rewrite' (here.index (i + k)) item = rewrite (here.index (i + k)) item) :
    rewriteItems rewrite' here selection i items =
      rewriteItems rewrite here selection i items := by
  induction items generalizing i with
  | nil => rfl
  | cons item rest ih =>
    have others : rewriteItems rewrite' here selection (i + 1) rest =
        rewriteItems rewrite here selection (i + 1) rest := by
      apply ih
      intro k x hget hsel hnull
      have shift : i + 1 + k = i + (k + 1) := by omega
      rw [shift] at hsel ⊢
      exact same (k + 1) x (by simpa using hget) hsel hnull
    rw [rewriteItems, rewriteItems, others]
    split
    · next hc =>
      rw [Bool.and_eq_true, Bool.not_eq_true'] at hc
      have first := same 0 item rfl hc.1 hc.2
      rw [Nat.add_zero] at first
      rw [first]
    · rfl

/-- Rewriting what a task leads to depends on how these nodes are rewritten. -/
theorem rewriteReached_congr {task : Task}
    (same : ∀ step child, task.selects step = true →
      Tree.child? node step = .ok (some child) → Tree.isNull child = false →
        rewrite' (here ++ [step]) child = rewrite (here ++ [step]) child) :
    rewriteReached rewrite' [task] here node = rewriteReached rewrite [task] here node := by
  cases task with
  | field name =>
    rcases hf : Tree.focusField? node name with e | _ | f
    · simp only [rewriteReached, hf]
    · simp only [rewriteReached, hf]
    · have hchild := child?_of_focusField? hf
      cases hnull : Tree.isNull f.part with
      | true => simp only [rewriteReached, hf, hnull, if_true]
      | false =>
        have hsame : rewrite' (here.field name) f.part = rewrite (here.field name) f.part :=
          same (.field name) f.part (by simp [Task.selects]) hchild hnull
        simp only [rewriteReached, hf, hnull, Bool.false_eq_true, if_false, hsame]
  | elements selection =>
    cases hf : Tree.focusElements? node with
    | none => simp only [rewriteReached, hf]
    | some f =>
      have helems := elements?_of_focusElements? hf
      have hitems : rewriteItems rewrite' here selection 0 f.part =
          rewriteItems rewrite here selection 0 f.part := by
        apply rewriteItems_congr
        intro k item hget hsel hnull
        rw [Nat.zero_add] at hsel ⊢
        exact same (.index k) item hsel (by rw [Tree.child?_index helems, hget]) hnull
      simp only [rewriteReached, hf, hitems]

/-- Writing depends on the replacements that it looks up. -/
theorem writeBelow_congr {tasks : List Task} (hR : replacements.AllSound) (hs : Sound node)
    (same : ∀ l, LooksUp replacements tasks here node l →
      replacements'.get? (here ++ l).text = replacements.get? (here ++ l).text)
    (h : writeBelow replacements tasks here node = .ok out) :
    writeBelow replacements' tasks here node = .ok out := by
  -- Induction on the tasks: the first one writes the same, and the others go on with the same.
  induction tasks generalizing here node out with
  | nil => exact h
  | cons task rest ih =>
    obtain ⟨written, hwrite, hrewrite⟩ := bind_eq_ok_iff.mp h
    have first := Task.write_spec hR hs hwrite
    have others := Task.rewritten_of_ok first.sound hrewrite
    have hwrite' : task.write replacements' here node = .ok written := by
      rw [← hwrite]
      apply Task.write_congr
      intro step hstep
      exact same [step] ⟨hstep, .inl rfl⟩
    refine bind_eq_ok_iff.mpr ⟨written, hwrite', ?_⟩
    rw [← hrewrite]
    apply rewriteReached_congr
    intro step child hsel hchild hnull
    obtain ⟨child', hchild', -⟩ := others.child?_of_rewritten step child hsel hchild hnull
    rw [hchild']
    -- what stands there was looked up, and is what the lookup left there
    have hlooks : task.LooksUp node step := by
      by_contra hnot
      have hbefore := (first.child?_of_not_looksUp step hnot).symm.trans hchild
      exact hnot (Task.LooksUp.of_child? hsel hbefore)
    have hsettled : settled replacements here node step = some child := by
      have hfound := (first.child?_of_looksUp step hlooks).symm.trans hchild
      simpa using hfound
    apply ih (sound_settled hR hs hsettled) _ hchild'
    intro l hl
    have hstep := same (step :: l) ⟨hlooks, .inr ⟨child, hsettled, hnull, hl⟩⟩
    simpa using hstep

end Congr

/-! ## Writing along a plan -/

namespace Plan

variable {plan : Plan} {root out : α}

theorem sound_write (hR : replacements.AllSound) (hs : Sound root)
    (h : plan.write root replacements = .ok out) : Sound out := by
  rw [write_eq_ok_iff] at h
  split at h
  · exact h ▸ hs
  · split at h
    · subst h
      cases hget : replacements.get? Location.root.text with
      | none => exact hs
      | some value => exact hR _ _ hget
    · exact (writeBelow_keeps hR hs h).1

/-- Where nothing is written at or above, the record is as it was. -/
theorem headAt_write (hR : replacements.AllSound) (hs : Sound root)
    (h : plan.write root replacements = .ok out) {l : Location}
    (hfree : ∀ w value, plan.Writes root replacements w value → ¬ w <+: l) :
    headAt l out = headAt l root := by
  rw [write_eq_ok_iff] at h
  split at h
  · rw [h]
  · cases htasks : plan.tasks with
    | nil =>
      -- without tasks only the root can be written, which is above everything
      rw [if_pos htasks] at h
      have hnone : replacements.get? Location.root.text = none := by
        by_contra hget
        obtain ⟨value, hvalue⟩ := Option.ne_none_iff_exists'.mp hget
        refine hfree Location.root value ⟨?_, hvalue⟩ List.nil_prefix
        simp [LooksUp, htasks]
      rw [h, hnone]
      rfl
    | cons task rest =>
      rw [if_neg (by simp [htasks]), htasks] at h
      apply headAt_writeBelow hR hs h
      intro w hw hlooks
      by_contra hget
      obtain ⟨value, hvalue⟩ := Option.ne_none_iff_exists'.mp hget
      refine hfree w value ⟨?_, hvalue⟩ hw
      simpa [LooksUp, htasks] using hlooks

/-- At and below a written location stands what was written there, as long as nothing is written
further down on the way. -/
theorem headAt_write_of_writes (hR : replacements.AllSound) (hs : Sound root)
    (h : plan.write root replacements = .ok out) {w below : Location} {value : α}
    (hw : plan.Writes root replacements w value)
    (hlast : ∀ w' value', plan.Writes root replacements w' value' → w <+: w' →
      w' <+: w ++ below → w' = w) : headAt (w ++ below) out = headAt below value := by
  obtain ⟨hlooks, hvalue⟩ := hw
  rw [write_eq_ok_iff, SortedMap.isEmpty_eq_false_of_get? hvalue] at h
  cases htasks : plan.tasks with
  | nil =>
    obtain rfl : w = Location.root := by simpa [LooksUp, htasks] using hlooks
    rw [htasks, hvalue] at h
    obtain rfl : out = value := by simpa using h
    rfl
  | cons task rest =>
    have hlooks : RecordCipher.LooksUp replacements (task :: rest) Location.root root w := by
      simpa [LooksUp, htasks] using hlooks
    have h : writeBelow replacements (task :: rest) Location.root root = .ok out := by
      simpa [htasks] using h
    apply headAt_writeBelow_of_written hR hs h hlooks hvalue
    intro w' hbefore hbefore' hlooks' hsome
    obtain ⟨value', hvalue'⟩ := Option.isSome_iff_exists.mp hsome
    refine hlast w' value' ⟨?_, hvalue'⟩ hbefore hbefore'
    simpa [LooksUp, htasks] using hlooks'

/-- Replacements that are not looked up do not matter. -/
theorem write_congr {replacements' : Replacements α} (hR : replacements.AllSound)
    (hs : Sound root) (h : plan.write root replacements = .ok out)
    (hempty : replacements.isEmpty = true → replacements'.isEmpty = true)
    (same : ∀ l, plan.LooksUp root replacements l →
      replacements'.get? l.text = replacements.get? l.text) :
    plan.write root replacements' = .ok out := by
  have sound := sound_write hR hs h
  have unchanged : replacements'.isEmpty = true → out = root := by
    intro hempty'
    apply LawfulTree.ext sound hs
    intro l
    apply headAt_write hR hs h
    rintro w value ⟨hlooks, hvalue⟩ -
    rw [← same w hlooks, SortedMap.get?_of_isEmpty hempty'] at hvalue
    cases hvalue
  rw [write_eq_ok_iff] at h ⊢
  split
  · next hempty' => exact unchanged hempty'
  · next hne' =>
    rw [if_neg fun hne => hne' (hempty hne)] at h
    cases htasks : plan.tasks with
    | nil =>
      have hroot := same Location.root (by simp [LooksUp, htasks])
      simpa [htasks, hroot] using h
    | cons task rest =>
      rw [if_neg (by simp [htasks]), htasks] at h
      rw [if_neg (by simp)]
      apply writeBelow_congr hR hs _ h
      intro l hl
      exact same l (by simpa [LooksUp, htasks] using hl)

/-- Writing along a plan changes what is at and below the written locations, and nothing else.
What is there then is decided by the last written location on the way: below it there is what
was written. A location that has no written one at or above it is there when it was there
before, with a node of the same head, and so of the same kind and length, and the fields it
gains are written ones. Replacements that are not looked up do not matter. -/
theorem write_frame (plan : Plan) {root out : α} {replacements : Replacements α}
    (hs : Sound root) (hR : replacements.AllSound)
    (h : plan.write root replacements = .ok out) :
    (∀ w value below, plan.Writes root replacements w value →
      (∀ w' value', plan.Writes root replacements w' value' → w <+: w' → w' <+: w ++ below →
        w' = w) → headAt (w ++ below) out = headAt below value) ∧
    (∀ l : Location, (∀ w value, plan.Writes root replacements w value → ¬ w <+: l) →
      headAt l out = headAt l root ∧
      ((∃ node, nodeAt? l out = .ok (some node)) ↔ ∃ node, nodeAt? l root = .ok (some node)) ∧
      (∀ node node', nodeAt? l root = .ok (some node) → nodeAt? l out = .ok (some node') →
        head node' = head node ∧ Tree.kind node' = Tree.kind node ∧
          Tree.length? node' = Tree.length? node) ∧
      ∀ name node, nodeAt? (l.field name) out = .ok (some node) →
        (¬ ∃ node', nodeAt? (l.field name) root = .ok (some node')) →
          ∃ value, plan.Writes root replacements (l.field name) value) ∧
    ∀ replacements', (replacements.isEmpty = true → replacements'.isEmpty = true) →
      (∀ l, plan.LooksUp root replacements l →
        replacements'.get? l.text = replacements.get? l.text) →
      plan.write root replacements' = .ok out := by
  refine ⟨fun w value below hw hlast => headAt_write_of_writes hR hs h hw hlast, ?_,
    fun replacements' hempty same => write_congr hR hs h hempty same⟩
  intro l hfree
  have heads := headAt_write hR hs h hfree
  refine ⟨heads, exists_nodeAt?_congr heads, ?_, ?_⟩
  · intro node node' hnode hnode'
    have hhead : head node' = head node := by
      rw [headAt_of_nodeAt? hnode, headAt_of_nodeAt? hnode'] at heads
      simpa using heads
    exact ⟨hhead, LawfulTree.kind_congr hhead, LawfulTree.length?_congr hhead⟩
  · intro name node hnode hgone
    by_contra hunwritten
    refine hgone ((exists_nodeAt?_congr (headAt_write hR hs h ?_)).mp ⟨node, hnode⟩)
    intro w value hw hbefore
    rcases List.prefix_concat_iff.mp hbefore with rfl | hbefore
    · exact hunwritten ⟨value, hw⟩
    · exact hfree w value hw hbefore

/-- A member of a document is replaced, and then a member of what stands there: another member
of that stays, and so does the rest of the document. In a record with two fields the one is as
it was after the other was set. -/
theorem write_frame_members_and_fields :
    (headAt [.field "a", .field "c"] (Json.object [("a", .object [("b", .string "w"),
        ("c", .string "z")]), ("k", .string "s")]) = .ok (some (Json.Head.string "z")) ∧
      headAt [.field "k"] (Json.object [("a", .object [("b", .string "w"),
        ("c", .string "z")]), ("k", .string "s")]) = .ok (some (Json.Head.string "s"))) ∧
    headAt [.field "k"] (Datum.struct (.struct {} [⟨"a", 0, .scalar .string {}⟩,
      ⟨"k", 1, .scalar .string {}⟩]) [some (.scalar (.string "y")), none]) = .ok none := by
  constructor
  · have sound : Sound (Json.object [("a", .object [("b", .string "x")]),
        ("k", .string "s")]) := by
      show Json.Sound _
      simp [InKeyOrder, show compare "a" "k" = .lt by decide]
    have hR : Replacements.AllSound (SortedMap.ofList
        [("$.a", Json.object [("b", .string "y"), ("c", .string "z")]),
          ("$.a.b", .string "w")]) := by
      apply Replacements.allSound_ofList
      show ∀ entry ∈ _, Json.Sound (Prod.snd entry)
      simp [InKeyOrder, show compare "b" "c" = .lt by decide]
    obtain ⟨written, unwritten, -⟩ :=
      write_frame ⟨"$.a.b", [.field "a", .field "b"]⟩ sound hR rfl
    -- the locations with replacements are those of the two members
    have only : ∀ path value, (SortedMap.ofList
        [("$.a", Json.object [("b", .string "y"), ("c", .string "z")]),
          ("$.a.b", .string "w")]).get? path = some value → path = "$.a" ∨ path = "$.a.b" := by
      intro path value hget
      have hm := SortedMap.mem_of_get?_ofList hget
      simp only [List.mem_cons, Prod.mk.injEq, List.not_mem_nil, or_false] at hm
      exact hm.imp And.left And.left
    constructor
    · refine written [.field "a"] (.object [("b", .string "y"), ("c", .string "z")])
        [.field "c"] ⟨⟨⟨rfl, by simp⟩, .inl rfl⟩, rfl⟩ ?_
      rintro w' value' ⟨-, hvalue'⟩ ⟨below, rfl⟩ hbefore
      have hbelow : below <+: [.field "c"] := by simpa using hbefore
      rcases List.prefix_cons_iff.mp hbelow with rfl | ⟨rest, rfl, hrest⟩
      · rfl
      · obtain rfl := List.prefix_nil.mp hrest
        rcases only _ _ hvalue' with htext | htext <;> exact absurd htext (by decide)
    · refine (unwritten [.field "k"] ?_).1
      rintro w value ⟨-, hvalue⟩ hbefore
      rcases List.prefix_cons_iff.mp hbefore with rfl | ⟨rest, rfl, hrest⟩
      · rcases only _ _ hvalue with htext | htext <;> exact absurd htext (by decide)
      · obtain rfl := List.prefix_nil.mp hrest
        rcases only _ _ hvalue with htext | htext <;> exact absurd htext (by decide)
  · have sound : Sound (Datum.struct (.struct {} [⟨"a", 0, .scalar .string {}⟩,
        ⟨"k", 1, .scalar .string {}⟩]) [none, none]) := by
      show Datum.Sound _
      simp [Schema.fields, Schema.fieldNames, Schema.Placed, List.range_succ]
    have hR : Replacements.AllSound
        (SortedMap.ofList [("$.a", Datum.scalar (.string "y"))]) := by
      apply Replacements.allSound_ofList
      show ∀ entry ∈ _, Datum.Sound (Prod.snd entry)
      simp
    obtain ⟨-, unwritten, -⟩ := write_frame ⟨"$.a", [.field "a"]⟩ sound hR rfl
    refine (unwritten [.field "k"] ?_).1
    rintro w value ⟨-, hvalue⟩ hbefore
    have htext : w.text = "$.a" := by
      have hm := SortedMap.mem_of_get?_ofList hvalue
      simp only [List.mem_singleton, Prod.mk.injEq] at hm
      exact hm.1
    rcases List.prefix_cons_iff.mp hbefore with rfl | ⟨rest, rfl, hrest⟩
    · exact absurd htext (by decide)
    · obtain rfl := List.prefix_nil.mp hrest
      exact absurd htext (by decide)

end Plan

end RecordCipher
