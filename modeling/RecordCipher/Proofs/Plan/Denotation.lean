import Mathlib.Data.List.Forall2
import Mathlib.Data.Set.List
import RecordCipher.Json.Tree
import RecordCipher.Proofs.Plan.Reading
import RecordCipher.Record.Tree

/-!
# What an expression denotes

An expression with wildcards stands for the expressions that have positions in their places. Each
choice of positions makes it a single location, and the location leads to one node at most. The
denotation of the expression is the partial function from choices to nodes, with the texts of
their locations. Reading goes down level by level instead, and files what it finds under texts in
which names are not marked off. It still finds what the expression denotes for each choice, and
different choices under different texts.

## Main definitions

* `locate`: the location of segments, for a choice of positions
* `landing`: the node that a location leads to, over nodes that are there and not null
* `Expression.denotes?`: the denotation of an expression

## Main results

* `reaches_iff_landing`, `forall₂_tasks_iff`: the nodes that tasks lead to are those that the
  locations of their segments lead to
* `Expression.denotes?_injective`: no two choices have one text
* `Expression.read_entries`: what is read along the plan of an expression is its denotation
-/

namespace RecordCipher

/-! ## Locations of segments -/

/-- The location of segments, for a choice of one position for each of their selections. There
is none if a position is not selected, or if there are too few or too many. -/
def locate : List Segment → List Nat → Option Location
  | [], [] => some []
  | [], _ :: _ => none
  | s :: rest, choice =>
    match s.selection, choice with
    | none, choice => (locate rest choice).map (.field s.name :: ·)
    | some _, [] => none
    | some selection, i :: choice =>
      if selection.selects i then
        (locate rest choice).map fun below => .field s.name :: .index i :: below
      else none

/-- The positions in a location. -/
def Location.positions (l : Location) : List Nat :=
  l.filterMap fun
    | .field _ => none
    | .index i => some i

/-- The choice can be read off the location. -/
theorem positions_of_locate {segments : List Segment} {choice : List Nat} {l : Location}
    (h : locate segments choice = some l) : l.positions = choice := by
  induction segments generalizing choice l with
  | nil =>
    cases choice with
    | nil =>
      obtain rfl : [] = l := by simpa [locate] using h
      rfl
    | cons i rest => cases h
  | cons s rest ih =>
    unfold locate at h
    split at h
    · obtain ⟨below, hbelow, rfl⟩ := Option.map_eq_some_iff.mp h
      simpa [Location.positions] using ih hbelow
    · cases h
    · split at h
      · obtain ⟨below, hbelow, rfl⟩ := Option.map_eq_some_iff.mp h
        simpa [Location.positions] using ih hbelow
      · cases h

/-- The tasks of segments take the steps of a location, one after another, when it is the
location of the segments for some choice. -/
theorem forall₂_tasks_iff (segments : List Segment) (l : Location) :
    List.Forall₂ (fun (task : Task) step => task.selects step = true)
      (segments.flatMap Segment.tasks) l ↔ ∃ choice, locate segments choice = some l := by
  -- Induction on the segments: a selection makes its task take one more step.
  induction segments generalizing l with
  | nil =>
    rw [List.flatMap_nil, List.forall₂_nil_left_iff]
    constructor
    · rintro rfl
      exact ⟨[], rfl⟩
    · rintro ⟨_ | _, h⟩
      · simpa [locate] using h.symm
      · cases h
  | cons s rest ih =>
    obtain ⟨name, written, selection⟩ := s
    rw [List.flatMap_cons, Segment.tasks]
    cases selection with
    | none =>
      simp only [Option.map_none, Option.toList_none, List.cons_append, List.nil_append,
        List.forall₂_cons_left_iff, ih, Task.selects_field_iff, locate, Option.map_eq_some_iff]
      constructor
      · rintro ⟨_, below, rfl, ⟨choice, h⟩, rfl⟩
        exact ⟨choice, below, h, rfl⟩
      · rintro ⟨choice, below, h, rfl⟩
        exact ⟨_, below, rfl, ⟨choice, h⟩, rfl⟩
    | some selection =>
      simp only [Option.map_some, Option.toList_some, List.cons_append, List.nil_append,
        List.forall₂_cons_left_iff, ih, Task.selects_field_iff, Task.selects_elements_iff]
      constructor
      · rintro ⟨_, _, rfl, ⟨_, below, ⟨i, rfl, hi⟩, ⟨choice, h⟩, rfl⟩, rfl⟩
        exact ⟨i :: choice, by simp [locate, hi, h]⟩
      · rintro ⟨_ | ⟨i, choice⟩, h⟩
        · cases h
        · simp only [locate] at h
          split at h
          · next hi =>
            obtain ⟨below, hbelow, rfl⟩ := Option.map_eq_some_iff.mp h
            exact ⟨_, _, rfl, ⟨_, below, ⟨i, rfl, hi⟩, ⟨choice, hbelow⟩, rfl⟩, rfl⟩
          · cases h

/-! ## Denotations -/

section

variable {α : Type} [Tree α]

/-- The node that a location leads to, if all nodes on the way are there and not null. -/
def landing : Location → α → Option α
  | [], node => some node
  | step :: below, node =>
    match Tree.child? node step with
    | .ok (some child) => if Tree.isNull child then none else landing below child
    | _ => none

theorem landing_cons_eq_some_iff {step : Location.Step} {below : Location} {node reached : α} :
    landing (step :: below) node = some reached ↔ ∃ child,
      Tree.child? node step = .ok (some child) ∧ Tree.isNull child = false ∧
        landing below child = some reached := by
  rw [landing]
  rcases Tree.child? node step with e | _ | child
  · simp
  · simp
  · cases hnull : Tree.isNull child <;> simp [hnull]

/-- Tasks lead to the nodes at the locations whose steps they take. -/
theorem reaches_iff_landing {tasks : List Task} {node reached : α} {l : Location} :
    Reaches tasks node l reached ↔
      List.Forall₂ (fun (task : Task) step => task.selects step = true) tasks l ∧
        landing l node = some reached := by
  induction tasks generalizing node l with
  | nil =>
    rw [List.forall₂_nil_left_iff]
    constructor
    · rintro ⟨rfl, rfl⟩
      exact ⟨rfl, rfl⟩
    · rintro ⟨rfl, h⟩
      exact ⟨rfl, by simpa [landing] using h.symm⟩
  | cons task rest ih =>
    cases l with
    | nil => simp [Reaches]
    | cons step below =>
      simp only [Reaches, ih, List.forall₂_cons, landing_cons_eq_some_iff]
      constructor
      · rintro ⟨hsel, child, hchild, hnull, hrest, hland⟩
        exact ⟨⟨hsel, hrest⟩, child, hchild, hnull, hland⟩
      · rintro ⟨⟨hsel, hrest⟩, child, hchild, hnull, hland⟩
        exact ⟨hsel, child, hchild, hnull, hrest, hland⟩

namespace Expression

/-- What an expression denotes in a record for a choice of positions: the node that is led to,
with the text of its location. -/
def denotes? (e : Expression) (root : α) (choice : List Nat) : Option (String × α) :=
  (locate e.segments choice).bind fun l => (landing l root).map fun node => (l.text, node)

theorem denotes?_eq_some_iff {e : Expression} {root : α} {choice : List Nat}
    {entry : String × α} : e.denotes? root choice = some entry ↔ ∃ l,
      locate e.segments choice = some l ∧ l.text = entry.1 ∧
        Reaches e.tasks root l entry.2 := by
  obtain ⟨path, node⟩ := entry
  simp only [denotes?, Option.bind_eq_some_iff, Option.map_eq_some_iff, Prod.mk.injEq, tasks,
    reaches_iff_landing, forall₂_tasks_iff]
  constructor
  · rintro ⟨l, hl, _, hland, htext, rfl⟩
    exact ⟨l, hl, htext, ⟨choice, hl⟩, hland⟩
  · rintro ⟨l, hl, htext, -, hland⟩
    exact ⟨l, hl, node, hland, htext, rfl⟩

/-- No two choices of an expression have one text, whatever characters its names have. -/
theorem denotes?_injective {e : Expression} {root : α} {choice choice' : List Nat}
    {entry entry' : String × α} (h : e.denotes? root choice = some entry)
    (h' : e.denotes? root choice' = some entry') (htext : entry.1 = entry'.1) :
    choice = choice' := by
  obtain ⟨l, hl, hpath, hreach⟩ := denotes?_eq_some_iff.mp h
  obtain ⟨l', hl', hpath', hreach'⟩ := denotes?_eq_some_iff.mp h'
  obtain ⟨rfl, -⟩ := hreach.eq_of_text hreach' (hpath.trans (htext.trans hpath'.symm))
  exact (positions_of_locate hl).symm.trans (positions_of_locate hl')

/-- Each entry that is read is what the expression denotes for some choice, and the other way
round. -/
theorem mem_entries_iff {e : Expression} {root : α} {values : PathMap α}
    (h : e.plan.read root = .ok values) (entry : String × α) :
    entry ∈ values.entries ↔ ∃ choice, e.denotes? root choice = some entry := by
  obtain ⟨path, node⟩ := entry
  rw [← SortedMap.get?_eq_some_iff, Plan.get?_of_read h]
  simp only [denotes?_eq_some_iff]
  constructor
  · rintro ⟨l, htext, hreach⟩
    obtain ⟨choice, hl⟩ := (forall₂_tasks_iff _ _).mp (reaches_iff_landing.mp hreach).1
    exact ⟨choice, l, hl, htext, hreach⟩
  · rintro ⟨choice, l, -, htext, hreach⟩
    exact ⟨l, htext, hreach⟩

/-- Reading along the plan of an expression, if it succeeds, finds exactly what the expression
denotes: its entries are those of the choices of positions that lead to a node, one for each, and
no two of these choices have one text. -/
theorem read_entries (e : Expression) (root : α) {values : PathMap α}
    (h : e.plan.read root = .ok values) :
    ∃ choices : List (List Nat), choices.Nodup ∧
      (∀ choice, choice ∈ choices ↔ (e.denotes? root choice).isSome = true) ∧
      choices.map (e.denotes? root) = values.entries.map some ∧
      values.size = choices.length ∧
      ∀ choice choice' entry entry', e.denotes? root choice = some entry →
        e.denotes? root choice' = some entry' → entry.1 = entry'.1 → choice = choice' := by
  have injective : ∀ choice choice' entry entry', e.denotes? root choice = some entry →
      e.denotes? root choice' = some entry' → entry.1 = entry'.1 → choice = choice' :=
    fun _ _ _ _ => denotes?_injective
  -- every entry has a choice
  obtain ⟨choices, hchoices⟩ :
      values.entries.map some ∈ Set.range (List.map (e.denotes? root)) := by
    rw [Set.range_list_map]
    intro found hm
    obtain ⟨entry, hentry, rfl⟩ := List.mem_map.mp hm
    exact (mem_entries_iff h entry).mp hentry
  have hlength : values.size = choices.length := by
    simpa [SortedMap.size] using (congrArg List.length hchoices).symm
  refine ⟨choices, ?_, ?_, hchoices, hlength, injective⟩
  · -- a choice that came twice would stand for two entries that are the same
    apply List.Nodup.of_map (e.denotes? root)
    rw [hchoices]
    exact values.nodup_entries.map (Option.some_injective _)
  · intro choice
    rw [Option.isSome_iff_exists]
    constructor
    · intro hm
      have hfound : e.denotes? root choice ∈ values.entries.map some :=
        hchoices ▸ List.mem_map_of_mem hm
      obtain ⟨entry, -, hentry⟩ := List.mem_map.mp hfound
      exact ⟨entry, hentry.symm⟩
    · rintro ⟨entry, hentry⟩
      have hm : some entry ∈ choices.map (e.denotes? root) := by
        rw [hchoices]
        exact List.mem_map_of_mem ((mem_entries_iff h entry).mpr ⟨choice, hentry⟩)
      obtain ⟨choice', hchoice', hentry'⟩ := List.mem_map.mp hm
      rwa [injective choice choice' entry entry hentry hentry' rfl]

end Expression

end

/-- Names with dots and brackets in them, around all elements of an array of which one is null
and another one has a null field; and an array of a record. -/
theorem Expression.read_entries_odd_names :
    (∃ choices : List (List Nat), choices.Nodup ∧
      choices.map ((Expression.mk "$['x.y'][*]['[0]']"
        [⟨"x.y", .bracket, some .every⟩, ⟨"[0]", .bracket, none⟩]).denotes?
          (Json.object [("x.y", .array [.object [("[0]", .string "a")], .null,
            .object [("[0]", .null)], .object [("[0]", .string "b")]])])) =
        [some ("$.x.y[0].[0]", .string "a"), some ("$.x.y[3].[0]", .string "b")] ∧
      2 = choices.length) ∧
    ∃ choices : List (List Nat), choices.Nodup ∧
      choices.map ((Expression.mk "$.l[1]" [⟨"l", .dot, some (.index 1)⟩]).denotes?
        (Datum.struct (.struct {} [⟨"l", 0, .array {} (.scalar .string {})⟩])
          [some (.array [.scalar (.string "a"), .scalar (.string "b")])])) =
        [some ("$.l[1]", .scalar (.string "b"))] ∧
      1 = choices.length := by
  constructor
  · obtain ⟨choices, nodup, -, entries, size, -⟩ := read_entries
      ⟨"$['x.y'][*]['[0]']", [⟨"x.y", .bracket, some .every⟩, ⟨"[0]", .bracket, none⟩]⟩
      (Json.object [("x.y", .array [.object [("[0]", .string "a")], .null,
        .object [("[0]", .null)], .object [("[0]", .string "b")]])]) rfl
    exact ⟨choices, nodup, entries, size⟩
  · obtain ⟨choices, nodup, -, entries, size, -⟩ := read_entries
      ⟨"$.l[1]", [⟨"l", .dot, some (.index 1)⟩]⟩
      (Datum.struct (.struct {} [⟨"l", 0, .array {} (.scalar .string {})⟩])
        [some (.array [.scalar (.string "a"), .scalar (.string "b")])]) rfl
    exact ⟨choices, nodup, entries, size⟩

end RecordCipher
