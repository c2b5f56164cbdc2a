import Mathlib.Data.List.Basic
import RecordCipher.Plan.Task
import Std.Data.String.ToNat

/-!
# Texts of the locations along a plan

Field names enter the text of a location as they are, so different locations can have one
text. Along the tasks of one plan they cannot: the names are those of the tasks, and a position
ends with the bracket behind it.

## Main definitions

* `Task.selects`: the steps that a task takes
* `Along`: the locations whose steps the first tasks of a list take

## Main results

* `Along.text_injective`: along one list of tasks, locations are told apart by their texts
-/

namespace RecordCipher

/-- Whether a task takes a step. -/
def Task.selects : Task → Location.Step → Bool
  | .field name, .field other => other == name
  | .elements selection, .index i => selection.selects i
  | _, _ => false

theorem Task.selects_field_iff (name : String) (step : Location.Step) :
    (Task.field name).selects step = true ↔ step = .field name := by
  cases step <;> simp [selects]

theorem Task.selects_elements_iff (selection : Selection) (step : Location.Step) :
    (Task.elements selection).selects step = true ↔
      ∃ i, step = .index i ∧ selection.selects i = true := by
  cases step <;> simp [selects]

/-- The first tasks of a list take the steps of a location, one task for each step. -/
def Along : List Task → Location → Prop
  | _, [] => True
  | [], _ :: _ => False
  | task :: rest, step :: below => task.selects step = true ∧ Along rest below

/-- Along some tasks and then others. -/
theorem Along.append {tasks rest : List Task} {l below : Location} (h : Along tasks l)
    (hlength : l.length = tasks.length) (hbelow : Along rest below) :
    Along (tasks ++ rest) (l ++ below) := by
  induction tasks generalizing l with
  | nil =>
    obtain rfl := List.eq_nil_of_length_eq_zero hlength
    exact hbelow
  | cons task tasks ih =>
    cases l with
    | nil => simp at hlength
    | cons step l => exact ⟨h.1, ih h.2 (by simpa using hlength)⟩

/-- The first tasks are enough. -/
theorem Along.append_right {tasks : List Task} {l : Location} (h : Along tasks l)
    (rest : List Task) : Along (tasks ++ rest) l := by
  induction tasks generalizing l with
  | nil =>
    cases l with
    | nil => cases rest <;> trivial
    | cons step l => exact h.elim
  | cons task tasks ih =>
    cases l with
    | nil => trivial
    | cons step l => exact ⟨h.1, ih h.2⟩

/-- What is above a location along tasks is along them, too. -/
theorem Along.of_append {tasks : List Task} {l below : Location} (h : Along tasks (l ++ below)) :
    Along tasks l := by
  induction l generalizing tasks with
  | nil => cases tasks <;> trivial
  | cons step l ih =>
    cases tasks with
    | nil => exact h.elim
    | cons task rest => exact ⟨h.1, ih h.2⟩

theorem Along.length_le {tasks : List Task} {l : Location} (h : Along tasks l) :
    l.length ≤ tasks.length := by
  induction tasks generalizing l with
  | nil =>
    cases l with
    | nil => exact Nat.le_refl _
    | cons step l => exact h.elim
  | cons task tasks ih =>
    cases l with
    | nil => simp
    | cons step l => simpa using ih h.2

/-! ## Texts as lists of characters -/

/-- What a step adds to the text of a location, as characters. -/
def Location.Step.chars (step : Location.Step) : List Char := step.text.toList

theorem Location.Step.chars_field (name : String) :
    (Location.Step.field name).chars = '.' :: name.toList := by
  simp [chars, text]

theorem Location.Step.chars_index (i : Nat) :
    (Location.Step.index i).chars = '[' :: (Nat.toDigits 10 i ++ [']']) := by
  simp [chars, text]

theorem Location.text_eq_iff (l l' : Location) :
    l.text = l'.text ↔ l.flatMap Step.chars = l'.flatMap Step.chars := by
  have h : ∀ l : Location, l.text.toList = '$' :: l.flatMap Step.chars := fun l => by
    simp only [text, String.toList_append, String.toList_join, List.flatMap_map]
    rfl
  rw [← String.toList_inj, h, h, List.cons_inj_right]

/-! ## Telling locations apart -/

/-- A position ends with the bracket behind it, whatever comes next. -/
theorem index_chars_append_inj {i j : Nat} {rest rest' : List Char}
    (h : (Location.Step.index i).chars ++ rest = (Location.Step.index j).chars ++ rest') :
    i = j ∧ rest = rest' := by
  have digits : ∀ n (rest : List Char),
      (Nat.toDigits 10 n ++ ']' :: rest).takeWhile Char.isDigit = Nat.toDigits 10 n :=
    fun n rest => by
      rw [List.takeWhile_append_of_pos fun _ hc =>
        Nat.isDigit_of_mem_toDigits (by decide) (by decide) hc]
      simp
  -- the digits are what comes before the bracket, which is no digit
  rw [Location.Step.chars_index, Location.Step.chars_index] at h
  simp only [List.cons_append, List.append_assoc, List.cons.injEq, true_and,
    List.nil_append] at h
  have same : Nat.toDigits 10 i = Nat.toDigits 10 j := by
    rw [← digits i rest, h, digits j rest']
  refine ⟨Nat.repr_injective ?_, ?_⟩
  · rw [Nat.repr_eq_ofList_toDigits, Nat.repr_eq_ofList_toDigits, same]
  · rw [same] at h
    simpa using h

/-- Two steps that one task takes are the same when the texts they start are. -/
theorem Task.step_chars_append_inj {task : Task} {step step' : Location.Step}
    (h : task.selects step = true) (h' : task.selects step' = true) {rest rest' : List Char}
    (heq : step.chars ++ rest = step'.chars ++ rest') : step = step' ∧ rest = rest' := by
  match task, step, step', h, h' with
  | .field name, .field a, .field b, h, h' =>
    obtain rfl : a = name := by simpa [selects] using h
    obtain rfl : b = a := by simpa [selects] using h'
    exact ⟨rfl, List.append_cancel_left heq⟩
  | .elements _, .index i, .index j, _, _ =>
    obtain ⟨rfl, hrest⟩ := index_chars_append_inj heq
    exact ⟨rfl, hrest⟩

/-- Along one list of tasks, locations are told apart by their texts: by those of different
depth as well, and whatever characters the names of fields have in them. -/
theorem Along.text_injective {tasks : List Task} {l l' : Location} (h : Along tasks l)
    (h' : Along tasks l') (heq : l.text = l'.text) : l = l' := by
  rw [Location.text_eq_iff] at heq
  -- every step adds something, so that no location has the text of what is above it
  have nonempty : ∀ step : Location.Step, step.chars ≠ [] := fun step => by
    cases step <;> simp [Location.Step.chars_field, Location.Step.chars_index]
  -- Induction on the tasks: one of them takes the first steps of both locations.
  induction tasks generalizing l l' with
  | nil => cases l <;> cases l' <;> simp_all [Along]
  | cons task rest ih =>
    match l, l', h, h' with
    | [], [], _, _ => rfl
    | [], step :: below, _, _ => simp [nonempty] at heq
    | step :: below, [], _, _ => simp [nonempty] at heq
    | step :: below, step' :: below', h, h' =>
      simp only [List.flatMap_cons] at heq
      obtain ⟨rfl, hbelow⟩ := Task.step_chars_append_inj h.1 h'.1 heq
      rw [ih h.2 h'.2 hbelow]

end RecordCipher
