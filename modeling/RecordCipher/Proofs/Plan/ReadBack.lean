import RecordCipher.Proofs.Plan.Frame

/-!
# Reading back what was written

The plan along which a record was written can be read along in the record that comes out,
whatever the replacements put in its way: the check for the shape of a node is made after the
replacements below it are set. What is read there are the replacements, as far as there are any
for the locations that are found.

When there are replacements only for what was read before, none of them meets a node on the way:
along one plan, the text of a location belongs to one depth. Then what is found is found at the
same locations as before.

## Main results

* `readable_of_writeBelow`, `eq_of_reaches_written`: reading succeeds after writing, and finds
  the replacements
* `Reaches.written`, `Reaches.of_written`: the same locations are found as before
* `Plan.read_write`: the law for a plan
-/

namespace RecordCipher

variable {α : Type} [Tree α] [LawfulTree α] {replacements : Replacements α}

/-- What is found one step below a node after writing, where the first task goes on, was looked
up, and is what the other tasks made of what stood there then. -/
theorem WrittenBelow.of_child {task : Task} {rest : List Task} {here : Location}
    {node out child : α} {step : Location.Step}
    (h : WrittenBelow replacements task rest here node out) (hsel : task.selects step = true)
    (hchild : Tree.child? out step = .ok (some child)) (hnull : Tree.isNull child = false) :
    task.LooksUp node step ∧ ∃ before, settled replacements here node step = some before ∧
      Tree.isNull before = false ∧
      writeBelow replacements rest (here ++ [step]) before = .ok child := by
  have hlooks : task.LooksUp node step := by
    refine ⟨hsel, ?_⟩
    rintro i rfl
    -- there are as many elements as before
    have length := LawfulTree.length?_congr h.head_eq
    have helem : Tree.element? out i = some child := by simpa [Tree.child?] using hchild
    cases helems : Tree.elements? out with
    | none => simp [Tree.element?, helems] at helem
    | some items' =>
      simp only [Tree.length?, helems, Option.map_some] at length
      obtain ⟨items, hitems, hlen⟩ := Option.map_eq_some_iff.mp length.symm
      have hlt : i < items'.length := by
        simp only [Tree.element?, helems, Option.bind_some] at helem
        exact (List.getElem?_eq_some_iff.mp helem).1
      simp only [Tree.element?, hitems, Option.bind_some]
      rw [List.getElem?_eq_getElem (by omega)]
      rfl
  obtain ⟨after, hafter, hdesc⟩ := h.descends step hlooks
  rw [hchild, Except.ok.injEq] at hafter
  subst hafter
  refine ⟨hlooks, ?_⟩
  generalize settled replacements here node step = before at hdesc
  cases hdesc with
  | null null => simp [hnull] at null
  | below notNull written => exact ⟨_, rfl, notNull, written⟩

/-! ## Reading succeeds, and finds the replacements -/

/-- After writing along tasks, they can be followed. -/
theorem readable_of_writeBelow (hR : replacements.AllSound) {tasks : List Task}
    {here : Location} {node out : α} (hs : Sound node)
    (h : writeBelow replacements tasks here node = .ok out) : Readable tasks out := by
  -- Induction on the tasks: the first one fits what it has made, whatever it was given.
  induction tasks generalizing here node out with
  | nil => trivial
  | cons task rest ih =>
    have below := writeBelow_cons hR hs h
    refine ⟨below.fits, fun step child hsel hchild hnull => ?_⟩
    obtain ⟨-, before, hbefore, -, hwritten⟩ := below.of_child hsel hchild hnull
    exact ih (sound_settled hR hs hbefore) hwritten

/-- What the tasks lead to after writing is the replacement for its location, if there is one. -/
theorem eq_of_reaches_written (hR : replacements.AllSound) {tasks : List Task}
    {here : Location} {node out : α} (hs : Sound node)
    (h : writeBelow replacements tasks here node = .ok out)
    (hhere : tasks = [] → ∀ value, replacements.get? here.text = some value → node = value)
    {l : Location} {reached value : α} (hreach : Reaches tasks out l reached)
    (hvalue : replacements.get? (here ++ l).text = some value) : reached = value := by
  -- Induction on the tasks. Where they end, what was looked up last is what stands there.
  induction tasks generalizing here node out l with
  | nil =>
    obtain ⟨rfl, rfl⟩ := hreach
    obtain rfl : node = reached := by simpa [writeBelow] using h
    exact hhere rfl value (by simpa using hvalue)
  | cons task rest ih =>
    cases l with
    | nil => exact hreach.elim
    | cons step l =>
      obtain ⟨hsel, child, hchild, hnull, hreach⟩ := hreach
      obtain ⟨-, before, hbefore, -, hwritten⟩ :=
        (writeBelow_cons hR hs h).of_child hsel hchild hnull
      refine ih (sound_settled hR hs hbefore) hwritten (fun _ value hget => ?_) hreach
        (by simpa using hvalue)
      rw [settled_of_get? hget] at hbefore
      exact (Option.some.inj hbefore).symm

/-! ## The same locations are found -/

/-- There are replacements only for what tasks lead to, as far as locations that the tasks can
take are concerned, and none of them is null. -/
def OnlyReached (replacements : Replacements α) (tasks : List Task) (here : Location)
    (node : α) : Prop :=
  ∀ l value, l ≠ [] → Along tasks l → replacements.get? (here ++ l).text = some value →
    Tree.isNull value = false ∧ ∃ reached, Reaches tasks node l reached

section Same

variable {task : Task} {rest tasks : List Task} {here l : Location} {node out child : α}
  {step : Location.Step}

omit [LawfulTree α] in
/-- A node that is replaced is one that all tasks lead to. -/
theorem OnlyReached.last (h : OnlyReached replacements (task :: rest) here node) {value : α}
    (hsel : task.selects step = true)
    (hget : replacements.get? (here ++ [step]).text = some value) :
    rest = [] ∧ Tree.isNull value = false ∧
      ∃ child, Tree.child? node step = .ok (some child) ∧ Tree.isNull child = false := by
  obtain ⟨hnull, reached, -, child, hchild, hnull', hreach⟩ :=
    h [step] value (by simp) ⟨hsel, by cases rest <;> trivial⟩ hget
  cases rest with
  | nil => exact ⟨rfl, hnull, child, hchild, hnull'⟩
  | cons _ _ => exact hreach.elim

omit [LawfulTree α] in
theorem OnlyReached.below (h : OnlyReached replacements (task :: rest) here node)
    (hsel : task.selects step = true) (hchild : Tree.child? node step = .ok (some child)) :
    OnlyReached replacements rest (here ++ [step]) child := by
  intro l value _ halong hget
  obtain ⟨hnull, reached, -, child', hchild', -, hreach⟩ :=
    h (step :: l) value (by simp) ⟨hsel, halong⟩ (by simpa using hget)
  rw [hchild] at hchild'
  obtain rfl : child = child' := by simpa using hchild'
  exact ⟨hnull, reached, hreach⟩

omit [LawfulTree α] in
/-- What tasks lead to is looked up, when no replacement is met on the way. -/
theorem LooksUp.of_reaches {replacements : Replacements α} {tasks : List Task}
    {here l : Location} {node x : α} (honly : OnlyReached replacements tasks here node)
    (hreach : Reaches tasks node l x) (hl : l ≠ []) :
    LooksUp replacements tasks here node l := by
  -- Induction on the tasks: no replacement on the way changes what the next one is given.
  induction tasks generalizing here node l with
  | nil => exact absurd hreach.1 hl
  | cons task rest ih =>
    cases l with
    | nil => exact hreach.elim
    | cons step below =>
      obtain ⟨hsel, child, hchild, hnull, hreach⟩ := hreach
      have hlooks := Task.LooksUp.of_child? hsel hchild
      refine ⟨hlooks, ?_⟩
      by_cases hbelow : below = []
      · exact .inl hbelow
      · have hget : replacements.get? (here ++ [step]).text = none := by
          -- a replacement there would be where the tasks end
          by_contra hsome
          obtain ⟨value, hvalue⟩ := Option.ne_none_iff_exists'.mp hsome
          obtain ⟨rfl, -⟩ := honly.last hsel hvalue
          exact hbelow hreach.1
        refine .inr ⟨child, settled_of_child? hget hchild, hnull, ?_⟩
        exact ih (honly.below hsel hchild) hreach hbelow

/-- What was found before is found after writing, and is the same unless it was replaced. -/
theorem Reaches.written (hR : replacements.AllSound) (hs : Sound node)
    (honly : OnlyReached replacements tasks here node)
    (h : writeBelow replacements tasks here node = .ok out) {reached : α}
    (hreach : Reaches tasks node l reached) :
    ∃ reached', Reaches tasks out l reached' ∧
      (replacements.get? (here ++ l).text = none → reached' = reached) := by
  -- Induction on the tasks: the first one is given what it was given before.
  induction tasks generalizing here node out l with
  | nil =>
    obtain rfl : node = out := by simpa [writeBelow] using h
    exact ⟨reached, hreach, fun _ => rfl⟩
  | cons task rest ih =>
    cases l with
    | nil => exact hreach.elim
    | cons step l =>
      obtain ⟨hsel, child, hchild, hnull, hreach⟩ := hreach
      have hlooks := Task.LooksUp.of_child? hsel hchild
      obtain ⟨after, hafter, hdesc⟩ := (writeBelow_cons hR hs h).descends step hlooks
      cases hget : replacements.get? (here ++ [step]).text with
      | some value =>
        -- the replacement stands where the tasks end
        obtain ⟨rfl, hnull', -⟩ := honly.last hsel hget
        rw [settled_of_get? hget] at hdesc
        obtain ⟨rfl, rfl⟩ := hreach
        obtain ⟨_, rfl, written⟩ := hdesc.of_not_null hnull'
        obtain rfl : value = _ := by simpa [writeBelow] using written
        refine ⟨value, ⟨hsel, value, hafter, hnull', rfl, rfl⟩, fun hnone => ?_⟩
        simp [hget] at hnone
      | none =>
        rw [settled_of_child? hget hchild] at hdesc
        obtain ⟨child', rfl, written⟩ := hdesc.of_not_null hnull
        have hsound := LawfulTree.sound_child hs hchild
        obtain ⟨reached', hreach', hsame⟩ := ih hsound (honly.below hsel hchild) written hreach
        have hnull' : Tree.isNull child' = false := by
          rw [LawfulTree.isNull_congr (writeBelow_keeps hR hsound written).2, hnull]
        exact ⟨reached', ⟨hsel, child', hafter, hnull', hreach'⟩, by simpa using hsame⟩

/-- What is found after writing was found before. -/
theorem Reaches.of_written (hR : replacements.AllSound) (hs : Sound node)
    (honly : OnlyReached replacements tasks here node)
    (h : writeBelow replacements tasks here node = .ok out) {reached' : α}
    (hreach : Reaches tasks out l reached') : ∃ reached, Reaches tasks node l reached := by
  induction tasks generalizing here node out l with
  | nil => exact ⟨node, hreach.1, rfl⟩
  | cons task rest ih =>
    cases l with
    | nil => exact hreach.elim
    | cons step l =>
      obtain ⟨hsel, child', hchild', hnull', hreach⟩ := hreach
      obtain ⟨-, before, hbefore, hnull, hwritten⟩ :=
        (writeBelow_cons hR hs h).of_child hsel hchild' hnull'
      cases hget : replacements.get? (here ++ [step]).text with
      | some value =>
        -- a replacement stands only where something was found before
        obtain ⟨rfl, -, child, hchild, hnull⟩ := honly.last hsel hget
        exact ⟨child, hsel, child, hchild, hnull, hreach.1, rfl⟩
      | none =>
        -- nothing was replaced, so that the others were given what was there before
        have hchild : Tree.child? node step = .ok (some before) := by
          rcases settled_eq_some hbefore with hsome | hchild
          · simp [hget] at hsome
          · exact hchild
        obtain ⟨reached, hreach⟩ :=
          ih (LawfulTree.sound_child hs hchild) (honly.below hsel hchild) hwritten hreach
        exact ⟨reached, hsel, before, hchild, hnull, hreach⟩

end Same

/-! ## The law for a plan -/

namespace Plan

variable {plan : Plan} {root out : α}

omit [LawfulTree α] in
/-- When all replacements are for what is read before writing, the tasks of the plan meet none
of them on the way: two locations along the plan have one text only when they are the same. -/
theorem onlyReached_of_read {before : PathMap α} (hread : plan.read root = .ok before)
    (hkeys : ∀ path, (replacements.get? path).isSome → (before.get? path).isSome)
    (hnull : ∀ path value, replacements.get? path = some value → Tree.isNull value = false) :
    OnlyReached replacements plan.tasks Location.root root := by
  intro l value _ halong hget
  refine ⟨hnull _ _ hget, ?_⟩
  have hbefore := hkeys (Location.root ++ l).text (by rw [hget]; rfl)
  obtain ⟨reached, hreached⟩ := Option.isSome_iff_exists.mp hbefore
  obtain ⟨l', htext, hreach⟩ := (get?_of_read hread _ _).mp hreached
  obtain rfl : l' = l := hreach.along.text_injective halong htext
  exact ⟨reached, hreach⟩

/-- Writing along a plan without tasks replaces the root; with tasks it goes on below. -/
theorem root_or_below (hne : replacements.isEmpty = false)
    (h : plan.write root replacements = .ok out) :
    (plan.tasks = [] ∧ out = (replacements.get? Location.root.text).getD root) ∨
      plan.tasks ≠ [] ∧ writeBelow replacements plan.tasks Location.root root = .ok out := by
  rw [write_eq_ok_iff, hne] at h
  by_cases htasks : plan.tasks = []
  · exact .inl ⟨htasks, by simpa [htasks] using h⟩
  · exact .inr ⟨htasks, by simpa [htasks] using h⟩

theorem readable_of_write (hs : Sound root) (hR : replacements.AllSound)
    (hne : replacements.isEmpty = false) (h : plan.write root replacements = .ok out) :
    Readable plan.tasks out := by
  rcases root_or_below hne h with ⟨htasks, -⟩ | ⟨-, hbelow⟩
  · rw [htasks]
    trivial
  · exact readable_of_writeBelow hR hs hbelow

/-- What a plan leads to after writing is the replacement for its location, if there is one. -/
theorem eq_of_reaches_write (hs : Sound root) (hR : replacements.AllSound)
    (hne : replacements.isEmpty = false) (h : plan.write root replacements = .ok out)
    {l : Location} {found value : α} (hreach : Reaches plan.tasks out l found)
    (hvalue : replacements.get? l.text = some value) : found = value := by
  rcases root_or_below hne h with ⟨htasks, hout⟩ | ⟨htasks, hbelow⟩
  · rw [htasks] at hreach
    obtain ⟨rfl, rfl⟩ := hreach
    have hroot : replacements.get? Location.root.text = some value := hvalue
    rw [hout, hroot]
    rfl
  · apply eq_of_reaches_written hR hs hbelow
    · intro hnil
      exact absurd hnil htasks
    · exact hreach
    · simpa [Location.root] using hvalue

/-- What a plan leads to before writing, it leads to afterwards, unless that was replaced. -/
theorem exists_reaches_write (hs : Sound root) (hR : replacements.AllSound)
    (hne : replacements.isEmpty = false) (h : plan.write root replacements = .ok out)
    (only : OnlyReached replacements plan.tasks Location.root root) {l : Location} {reached : α}
    (hreach : Reaches plan.tasks root l reached) :
    ∃ reached', Reaches plan.tasks out l reached' ∧
      (replacements.get? l.text = none → reached' = reached) := by
  rcases root_or_below hne h with ⟨htasks, hout⟩ | ⟨-, hbelow⟩
  · rw [htasks] at hreach ⊢
    obtain ⟨rfl, rfl⟩ := hreach
    refine ⟨out, ⟨rfl, rfl⟩, ?_⟩
    intro hnone
    have hroot : replacements.get? Location.root.text = none := hnone
    rw [hout, hroot]
    rfl
  · simpa [Location.root] using hreach.written hR hs only hbelow

/-- What a plan leads to after writing, it led to before. -/
theorem exists_reaches_of_write (hs : Sound root) (hR : replacements.AllSound)
    (hne : replacements.isEmpty = false) (h : plan.write root replacements = .ok out)
    (only : OnlyReached replacements plan.tasks Location.root root) {l : Location}
    {reached' : α} (hreach : Reaches plan.tasks out l reached') :
    ∃ reached, Reaches plan.tasks root l reached := by
  rcases root_or_below hne h with ⟨htasks, -⟩ | ⟨-, hbelow⟩
  · rw [htasks] at hreach ⊢
    exact ⟨root, hreach.1, rfl⟩
  · exact hreach.of_written hR hs only hbelow

end Plan

/-- Reading succeeds after writing along the same plan, and finds the replacements wherever
there are any for what it finds. When there are replacements only for what was read before, and
none of them is null, it finds something at the same locations as before, and the same where
nothing was replaced. -/
theorem Plan.read_write (plan : Plan) {root out : α} (hs : Sound root)
    (hR : replacements.AllSound) (hne : replacements.isEmpty = false)
    (h : plan.write root replacements = .ok out) :
    ∃ after, plan.read out = .ok after ∧
      (∀ path found value, after.get? path = some found →
        replacements.get? path = some value → found = value) ∧
      ∀ before, plan.read root = .ok before →
        (∀ path, (replacements.get? path).isSome → (before.get? path).isSome) →
        (∀ path value, replacements.get? path = some value → Tree.isNull value = false) →
        ∀ path, ((after.get? path).isSome ↔ (before.get? path).isSome) ∧
          (replacements.get? path = none → after.get? path = before.get? path) := by
  obtain ⟨after, hafter⟩ :=
    (Plan.read_ok_iff plan out).mpr (readable_of_write hs hR hne h)
  refine ⟨after, hafter, ?_, ?_⟩
  · intro path found value hfound hvalue
    obtain ⟨l, rfl, hreach⟩ := (Plan.get?_of_read hafter path found).mp hfound
    exact eq_of_reaches_write hs hR hne h hreach hvalue
  · intro before hbefore hkeys hnull path
    have only := onlyReached_of_read hbefore hkeys hnull
    constructor
    · simp only [Option.isSome_iff_exists, Plan.get?_of_read hafter, Plan.get?_of_read hbefore]
      constructor
      · rintro ⟨reached', l, htext, hreach⟩
        obtain ⟨reached, hreach⟩ := exists_reaches_of_write hs hR hne h only hreach
        exact ⟨reached, l, htext, hreach⟩
      · rintro ⟨reached, l, htext, hreach⟩
        obtain ⟨reached', hreach, -⟩ := exists_reaches_write hs hR hne h only hreach
        exact ⟨reached', l, htext, hreach⟩
    · intro hnone
      apply Option.ext
      intro node
      rw [Plan.get?_of_read hafter, Plan.get?_of_read hbefore]
      constructor
      · rintro ⟨l, rfl, hreach⟩
        obtain ⟨reached, hreached⟩ := exists_reaches_of_write hs hR hne h only hreach
        obtain ⟨reached', hreach', hsame⟩ := exists_reaches_write hs hR hne h only hreached
        obtain rfl := hreach.unique hreach'
        rw [hsame hnone]
        exact ⟨l, rfl, hreached⟩
      · rintro ⟨l, rfl, hreach⟩
        obtain ⟨reached', hreach', hsame⟩ := exists_reaches_write hs hR hne h only hreach
        rw [hsame hnone] at hreach'
        exact ⟨l, rfl, hreach'⟩

/-- Reading back in a document, where the first element of an array is replaced and the second
one is null, and in a record with its field replaced. -/
theorem Plan.read_write_element_and_field :
    (∃ after, Plan.read ⟨"$.a[*]", [.field "a", .elements .every]⟩
        (Json.object [("a", .array [.string "y", .null, .string "z"])]) = .ok after ∧
      after.get? "$.a[0]" = some (.string "y") ∧ after.get? "$.a[2]" = some (.string "z")) ∧
    ∃ after, Plan.read ⟨"$.a", [.field "a"]⟩
        (Datum.struct (.struct {} [⟨"a", 0, .scalar .string {}⟩])
          [some (.scalar (.string "y"))]) = .ok after ∧
      after.get? "$.a" = some (.scalar (.string "y")) := by
  constructor
  · have sound : Sound (Json.object [("a", .array [.string "x", .null, .string "z"])]) := by
      show Json.Sound _
      simp [InKeyOrder]
    have replaced : Replacements.AllSound (SortedMap.ofList [("$.a[0]", Json.string "y")]) := by
      apply Replacements.allSound_ofList
      show ∀ entry ∈ _, Json.Sound (Prod.snd entry)
      simp
    have only : ∀ path value,
        (SortedMap.ofList [("$.a[0]", Json.string "y")]).get? path = some value →
          path = "$.a[0]" ∧ value = .string "y" := by
      intro path value hget
      simpa using SortedMap.mem_of_get?_ofList hget
    obtain ⟨after, hafter, hfound, hsame⟩ :=
      Plan.read_write ⟨"$.a[*]", [.field "a", .elements .every]⟩ sound replaced rfl rfl
    have same := hsame (SortedMap.ofList [("$.a[0]", .string "x"), ("$.a[2]", .string "z")]) rfl
      (by
        intro path hsome
        obtain ⟨value, hget⟩ := Option.isSome_iff_exists.mp hsome
        rw [(only path value hget).1]
        rfl)
      (by
        intro path value hget
        rw [(only path value hget).2]
        rfl)
    obtain ⟨found, hget⟩ := Option.isSome_iff_exists.mp ((same "$.a[0]").1.mpr rfl)
    refine ⟨after, hafter, ?_, (same "$.a[2]").2 rfl⟩
    rw [hget, hfound _ _ _ hget rfl]
  · have sound : Sound (Datum.struct (.struct {} [⟨"a", 0, .scalar .string {}⟩])
        [some (.scalar (.string "x"))]) := by
      show Datum.Sound _
      simp [Schema.fields, Schema.fieldNames, Schema.Placed, List.range_succ]
    have replaced : Replacements.AllSound
        (SortedMap.ofList [("$.a", Datum.scalar (.string "y"))]) := by
      apply Replacements.allSound_ofList
      show ∀ entry ∈ _, Datum.Sound (Prod.snd entry)
      simp
    obtain ⟨after, hafter, hfound, hsame⟩ :=
      Plan.read_write ⟨"$.a", [.field "a"]⟩ sound replaced rfl rfl
    have same := hsame (SortedMap.ofList [("$.a", .scalar (.string "x"))]) rfl
      (by
        intro path hsome
        obtain ⟨value, hget⟩ := Option.isSome_iff_exists.mp hsome
        obtain ⟨rfl, -⟩ : path = "$.a" ∧ value = _ := by
          simpa using SortedMap.mem_of_get?_ofList hget
        rfl)
      (fun _ _ _ => rfl)
    obtain ⟨found, hget⟩ := Option.isSome_iff_exists.mp ((same "$.a").1.mpr rfl)
    refine ⟨after, hafter, ?_⟩
    rw [hget, hfound _ _ _ hget rfl]

end RecordCipher
