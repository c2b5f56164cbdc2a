import RecordCipher.Proofs.Plan.Denotation
import RecordCipher.Proofs.Plan.Frame

/-!
# The texts of locations as a code

The first tasks of a plan and positions for those that go to elements make up a location.
Replacements for such locations are filed under their texts, and writing finds them there. Since no
two of these locations have one text, at whatever depth they are and whatever is in the names of
fields, what is found for a location is what was meant for it. Locations of different plans can have
one text, as names are not marked off.

## Main definitions

* `instantiate`: the location of tasks, for a choice of positions
* `Plan.Instance`: the locations of the first tasks of a plan
* `Replacements.filed`: values under the texts of the locations they are meant for

## Main results

* `Plan.instance_iff_along`: the locations along the tasks of a plan are those of its first tasks
* `instantiate_text_eq_iff`: the text of a location tells how many tasks and which positions it is
  of
* `Plan.write_eq_of_instances`: writing looks up replacements at such locations only
* `Plan.lookups_as_meant`: what is looked up for a location was meant for it
-/

namespace RecordCipher

/-! ## Instances of tasks -/

/-- The location of tasks, for a choice of one position for each task that goes to elements. There
is none if a position is not selected, or if there are too few or too many. -/
def instantiate : List Task → List Nat → Option Location
  | [], [] => some []
  | [], _ :: _ => none
  | .field name :: rest, choice => (instantiate rest choice).map (.field name :: ·)
  | .elements _ :: _, [] => none
  | .elements selection :: rest, i :: choice =>
    if selection.selects i then (instantiate rest choice).map (.index i :: ·) else none

theorem instantiate_field_eq_some_iff {name : String} {rest : List Task} {choice : List Nat}
    {l : Location} : instantiate (.field name :: rest) choice = some l ↔
      ∃ below, instantiate rest choice = some below ∧ l = .field name :: below := by
  simp [instantiate, eq_comm]

theorem instantiate_elements_eq_some_iff {selection : Selection} {rest : List Task}
    {choice : List Nat} {l : Location} :
    instantiate (.elements selection :: rest) choice = some l ↔
      ∃ i others below, choice = i :: others ∧ selection.selects i = true ∧
        instantiate rest others = some below ∧ l = .index i :: below := by
  cases choice with
  | nil => simp [instantiate]
  | cons i others =>
    rw [instantiate]
    split
    · next hi => simp [hi, eq_comm (b := l)]
    · next hi => simp [hi]

/-- The locations of tasks are those along them that are as long. -/
theorem exists_instantiate_iff (tasks : List Task) (l : Location) :
    (∃ choice, instantiate tasks choice = some l) ↔ Along tasks l ∧ l.length = tasks.length := by
  -- Induction on the tasks, each of which takes one step.
  induction tasks generalizing l with
  | nil =>
    constructor
    · rintro ⟨_ | _, h⟩
      · obtain rfl : [] = l := by simpa [instantiate] using h
        exact ⟨trivial, rfl⟩
      · cases h
    · rintro ⟨-, hlength⟩
      obtain rfl := List.eq_nil_of_length_eq_zero hlength
      exact ⟨[], rfl⟩
  | cons task rest ih =>
    constructor
    · rintro ⟨choice, h⟩
      cases task with
      | field name =>
        obtain ⟨below, hbelow, rfl⟩ := instantiate_field_eq_some_iff.mp h
        obtain ⟨halong, hlength⟩ := (ih below).mp ⟨choice, hbelow⟩
        exact ⟨⟨by simp [Task.selects], halong⟩, by simp [hlength]⟩
      | elements selection =>
        obtain ⟨i, others, below, rfl, hsel, hbelow, rfl⟩ := instantiate_elements_eq_some_iff.mp h
        obtain ⟨halong, hlength⟩ := (ih below).mp ⟨others, hbelow⟩
        exact ⟨⟨hsel, halong⟩, by simp [hlength]⟩
    · rintro ⟨halong, hlength⟩
      cases l with
      | nil => simp at hlength
      | cons step below =>
        obtain ⟨hsel, halong⟩ := halong
        obtain ⟨choice, hbelow⟩ := (ih below).mpr ⟨halong, by simpa using hlength⟩
        cases task with
        | field name =>
          obtain rfl := (Task.selects_field_iff name step).mp hsel
          exact ⟨choice, instantiate_field_eq_some_iff.mpr ⟨below, hbelow, rfl⟩⟩
        | elements selection =>
          obtain ⟨i, rfl, hi⟩ := (Task.selects_elements_iff selection step).mp hsel
          exact ⟨i :: choice,
            instantiate_elements_eq_some_iff.mpr ⟨i, choice, below, rfl, hi, hbelow, rfl⟩⟩

/-- The choice can be read off the location. -/
theorem positions_of_instantiate {tasks : List Task} {choice : List Nat} {l : Location}
    (h : instantiate tasks choice = some l) : l.positions = choice := by
  induction tasks generalizing choice l with
  | nil =>
    cases choice with
    | nil =>
      obtain rfl : [] = l := by simpa [instantiate] using h
      rfl
    | cons i rest => cases h
  | cons task rest ih =>
    cases task with
    | field name =>
      obtain ⟨below, hbelow, rfl⟩ := instantiate_field_eq_some_iff.mp h
      exact ih (l := below) hbelow
    | elements selection =>
      obtain ⟨i, others, below, rfl, -, hbelow, rfl⟩ := instantiate_elements_eq_some_iff.mp h
      exact congrArg (i :: ·) (ih hbelow)

/-- As many tasks are enough as the location has steps. -/
theorem Along.take {tasks : List Task} {l : Location} (h : Along tasks l) :
    Along (tasks.take l.length) l := by
  induction l generalizing tasks with
  | nil => trivial
  | cons step below ih =>
    cases tasks with
    | nil => exact h.elim
    | cons task rest => exact ⟨h.1, ih h.2⟩

/-- Among the first tasks of one list, the text of a location tells how many of them and which
positions it is of. -/
theorem instantiate_text_eq_iff {tasks before before' : List Task} {choice choice' : List Nat}
    {l l' : Location} (hbefore : before <+: tasks) (hbefore' : before' <+: tasks)
    (h : instantiate before choice = some l) (h' : instantiate before' choice' = some l') :
    l.text = l'.text ↔ before.length = before'.length ∧ choice = choice' := by
  obtain ⟨halong, hlength⟩ := (exists_instantiate_iff before l).mp ⟨choice, h⟩
  obtain ⟨halong', hlength'⟩ := (exists_instantiate_iff before' l').mp ⟨choice', h'⟩
  constructor
  · intro htext
    obtain ⟨rest, rfl⟩ := hbefore
    obtain ⟨rest', hrest'⟩ := hbefore'
    obtain rfl := (halong.append_right rest).text_injective
      (hrest' ▸ halong'.append_right rest') htext
    refine ⟨hlength.symm.trans hlength', ?_⟩
    rw [← positions_of_instantiate h, ← positions_of_instantiate h']
  · rintro ⟨hsame, rfl⟩
    -- first tasks that are as many are the same
    obtain rfl : before = before' := by
      rw [List.prefix_iff_eq_take.mp hbefore, List.prefix_iff_eq_take.mp hbefore', hsame]
    rw [Option.some.inj (h.symm.trans h')]

namespace Plan

/-- A location of the first tasks of a plan, for some choice of positions. -/
def Instance (plan : Plan) (l : Location) : Prop :=
  ∃ before choice, before <+: plan.tasks ∧ instantiate before choice = some l

/-- The locations along the tasks of a plan are those of its first tasks. -/
theorem instance_iff_along (plan : Plan) (l : Location) : plan.Instance l ↔ Along plan.tasks l := by
  constructor
  · rintro ⟨before, choice, ⟨rest, hbefore⟩, h⟩
    have halong := ((exists_instantiate_iff before l).mp ⟨choice, h⟩).1
    exact hbefore ▸ halong.append_right rest
  · intro h
    have hlength : l.length = (plan.tasks.take l.length).length := by simp [h.length_le]
    obtain ⟨choice, hchoice⟩ := (exists_instantiate_iff _ l).mpr ⟨h.take, hlength⟩
    exact ⟨_, choice, List.take_prefix _ _, hchoice⟩

end Plan

/-! ## What writing looks up -/

section Lookups

variable {α : Type} [Tree α] {replacements replacements' : Replacements α}

/-- Rewriting what tasks lead to depends on how the nodes at the locations of all the tasks are
rewritten. -/
theorem rewriteReached_eq_of_along {rewrite rewrite' : Location → α → Except ResolutionError α}
    {tasks : List Task} {here : Location} {node : α}
    (same : ∀ l node, Along tasks l → l.length = tasks.length →
      rewrite' (here ++ l) node = rewrite (here ++ l) node) :
    rewriteReached rewrite' tasks here node = rewriteReached rewrite tasks here node := by
  induction tasks generalizing here node with
  | nil => simpa [rewriteReached] using same [] node trivial rfl
  | cons task rest ih =>
    have below : ∀ step child, task.selects step = true →
        rewriteReached rewrite' rest (here ++ [step]) child =
          rewriteReached rewrite rest (here ++ [step]) child := by
      intro step child hsel
      apply ih
      intro l node hl hlength
      simpa using same (step :: l) node ⟨hsel, hl⟩ (by simpa using hlength)
    cases task with
    | field name =>
      have hfield : ∀ child, rewriteReached rewrite' rest (here.field name) child =
          rewriteReached rewrite rest (here.field name) child :=
        fun child => below (.field name) child (by simp [Task.selects])
      simp only [rewriteReached, hfield]
    | elements selection =>
      have hitems : ∀ items : List α,
          rewriteItems (rewriteReached rewrite' rest) here selection 0 items =
            rewriteItems (rewriteReached rewrite rest) here selection 0 items := by
        intro items
        apply rewriteItems_congr
        intro k item _ hsel _
        exact below (.index (0 + k)) item hsel
      simp only [rewriteReached, hitems]

/-- Writing at levels depends on the replacements for the locations along the tasks. -/
theorem writeLevels_eq_of_along {done tasks : List Task} {root : α}
    (same : ∀ l, l ≠ Location.root → Along (done ++ tasks) l →
      replacements'.get? l.text = replacements.get? l.text) :
    writeLevels replacements' done tasks root = writeLevels replacements done tasks root := by
  -- Induction on the tasks that are left, for whatever those before have written.
  induction tasks generalizing done root with
  | nil => rfl
  | cons task rest ih =>
    rw [List.append_cons] at same
    have level : rewriteReached (fun here node => task.write replacements' here node) done
          Location.root root =
        rewriteReached (fun here node => task.write replacements here node) done
          Location.root root := by
      apply rewriteReached_eq_of_along
      intro l node hl hlength
      apply Task.write_congr
      intro step hlooks
      have halong : Along (done ++ [task]) (l ++ [step]) :=
        hl.append hlength ⟨hlooks.1, trivial⟩
      exact same (l ++ [step]) (by simp [Location.root]) (halong.append_right rest)
    rw [writeLevels, writeLevels, level]
    exact congrArg _ (funext fun written => ih same)

namespace Plan

/-- Writing looks up replacements at the locations of the first tasks of the plan, and nowhere else:
with the same replacements there it comes to the same. The root is such a location if there are no
tasks. -/
theorem write_eq_of_instances (plan : Plan) (root : α)
    (hempty : replacements'.isEmpty = replacements.isEmpty)
    (same : ∀ l, plan.Instance l → (l = Location.root → plan.tasks = []) →
      replacements'.get? l.text = replacements.get? l.text) :
    plan.write root replacements' = plan.write root replacements := by
  rw [write, write, hempty]
  cases htasks : plan.tasks with
  | nil =>
    have hroot := same Location.root ⟨[], [], List.nil_prefix, rfl⟩ fun _ => htasks
    simp [hroot]
  | cons task rest =>
    have levels : writeLevels replacements' [] (task :: rest) root =
        writeLevels replacements [] (task :: rest) root := by
      apply writeLevels_eq_of_along
      intro l hne hl
      rw [List.nil_append, ← htasks] at hl
      exact same l ((plan.instance_iff_along l).mpr hl) fun hroot => absurd hroot hne
    simp only [levels, List.isEmpty_cons, Bool.false_eq_true, if_false]

end Plan

end Lookups

/-! ## Replacements by the locations they are meant for -/

section Filed

variable {α : Type}

/-- Values filed under the texts of the locations they are meant for. -/
def Replacements.filed (entries : List (Location × α)) : Replacements α :=
  SortedMap.ofList (entries.map fun entry => (entry.1.text, entry.2))

/-- What is found for a location of a plan is what was meant for it. -/
theorem Replacements.get?_filed {plan : Plan} {entries : List (Location × α)}
    (hplan : ∀ entry ∈ entries, plan.Instance entry.1) (once : SortedMap.Consistent entries)
    {l : Location} (hl : plan.Instance l) (value : α) :
    (filed entries).get? l.text = some value ↔ (l, value) ∈ entries := by
  -- entries whose locations have the text of this one are for this one
  have meant : ∀ {l'}, plan.Instance l' → ∀ v, (l'.text, v) ∈ entries.map
      (fun entry => (entry.1.text, entry.2)) ↔ (l', v) ∈ entries := by
    intro l' hl' v
    rw [List.mem_map]
    constructor
    · rintro ⟨⟨l'', v'⟩, hm, heq⟩
      obtain ⟨htext, rfl⟩ := Prod.mk.inj heq
      have hl'' := (plan.instance_iff_along l'').mp (hplan _ hm)
      obtain rfl := hl''.text_injective ((plan.instance_iff_along l').mp hl') htext
      exact hm
    · intro hm
      exact ⟨_, hm, rfl⟩
  have consistent : SortedMap.Consistent
      (entries.map fun entry => (entry.1.text, entry.2)) := by
    intro path a b ha hb
    obtain ⟨⟨l', v⟩, hm, heq⟩ := List.mem_map.mp ha
    obtain ⟨rfl, -⟩ := Prod.mk.inj heq
    have hl' := hplan _ hm
    exact once l' a b ((meant hl' a).mp ha) ((meant hl' b).mp hb)
  rw [filed, SortedMap.get?_ofList consistent, meant hl]

theorem Replacements.isEmpty_filed (entries : List (Location × α)) :
    (filed entries).isEmpty = entries.isEmpty := by
  rw [filed, SortedMap.isEmpty_ofList, List.isEmpty_map]

end Filed

/-- The texts of the locations of one plan are a code: the text tells how many of the tasks and
which positions a location is of, whatever is in the names of fields. So what is looked up for a
location is what was meant for it, and what writing comes to depends on which values are meant for
which locations, of the root only without tasks. -/
theorem Plan.lookups_as_meant (plan : Plan) :
    (∀ before before' choice choice' l l', before <+: plan.tasks → before' <+: plan.tasks →
      instantiate before choice = some l → instantiate before' choice' = some l' →
      (l.text = l'.text ↔ before.length = before'.length ∧ choice = choice')) ∧
    ∀ (α : Type) [Tree α] (entries : List (Location × α)),
      (∀ entry ∈ entries, plan.Instance entry.1) → SortedMap.Consistent entries →
      (∀ l value, plan.Instance l →
        ((Replacements.filed entries).get? l.text = some value ↔ (l, value) ∈ entries)) ∧
      ∀ (root : α) (replacements : Replacements α), replacements.isEmpty = entries.isEmpty →
        (∀ l value, plan.Instance l → (l = Location.root → plan.tasks = []) →
          (replacements.get? l.text = some value ↔ (l, value) ∈ entries)) →
        plan.write root replacements = plan.write root (.filed entries) := by
  refine ⟨fun before before' choice choice' l l' => instantiate_text_eq_iff, ?_⟩
  intro α _ entries hplan once
  have hfiled : ∀ l value, plan.Instance l →
      ((Replacements.filed entries).get? l.text = some value ↔ (l, value) ∈ entries) :=
    fun l value hl => Replacements.get?_filed hplan once hl value
  refine ⟨hfiled, fun root replacements hempty hmeant => ?_⟩
  apply write_eq_of_instances
  · rw [hempty, Replacements.isEmpty_filed]
  · intro l hl hroot
    refine Option.ext fun value => ?_
    rw [hmeant l value hl hroot, hfiled l value hl]

/-- Names with dots and brackets in them: the element and what is below it have texts of their own,
and writing finds the replacement of each. -/
theorem Plan.lookups_as_meant_brackets :
    let plan : Plan := ⟨"", [.field "a[0].b", .elements .every, .field "]"]⟩
    let element : Location := [.field "a[0].b", .index 0]
    let below : Location := [.field "a[0].b", .index 0, .field "]"]
    let entries : List (Location × Json) := [(element, .string "x"), (below, .string "y")]
    (∀ entry ∈ entries, plan.Instance entry.1) ∧ SortedMap.Consistent entries ∧
      element.text ≠ below.text ∧
      (Replacements.filed entries).get? element.text = some (.string "x") ∧
      (Replacements.filed entries).get? below.text = some (.string "y") := by
  intro plan element below entries
  obtain ⟨code, lookups⟩ := lookups_as_meant plan
  have helement : instantiate (plan.tasks.take 2) [0] = some element := rfl
  have hbelow : instantiate plan.tasks [0] = some below := rfl
  have hplan : ∀ entry ∈ entries, plan.Instance entry.1 := by
    intro entry hm
    rcases List.mem_pair.mp hm with rfl | rfl
    · exact ⟨_, _, List.take_prefix _ _, helement⟩
    · exact ⟨_, _, List.prefix_rfl, hbelow⟩
  have once : SortedMap.Consistent entries := by
    intro l a b ha hb
    have hne : element ≠ below := by decide
    simp only [entries, List.mem_pair, Prod.mk.injEq] at ha hb
    rcases ha with ⟨rfl, rfl⟩ | ⟨rfl, rfl⟩
    · rcases hb with ⟨-, rfl⟩ | ⟨heq, -⟩
      · rfl
      · exact absurd heq hne
    · rcases hb with ⟨heq, -⟩ | ⟨-, rfl⟩
      · exact absurd heq.symm hne
      · rfl
  obtain ⟨found, -⟩ := lookups Json entries hplan once
  refine ⟨hplan, once, ?_, ?_, ?_⟩
  · intro htext
    have hlength := ((code _ _ _ _ _ _ (List.take_prefix 2 _) List.prefix_rfl helement hbelow).mp
      htext).1
    exact absurd hlength (by decide)
  · exact (found element _ (hplan _ List.mem_cons_self)).mpr List.mem_cons_self
  · exact (found below _ (hplan _ (List.mem_cons_of_mem _ List.mem_cons_self))).mpr
      (List.mem_cons_of_mem _ List.mem_cons_self)

/-- Locations of two plans can have one text. -/
example : Location.text [.field "a", .field "b"] = Location.text [.field "a.b"] := by decide

end RecordCipher
