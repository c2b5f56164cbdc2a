import RecordCipher.Proofs.Exchange.Leaves
import RecordCipher.Proofs.Plan.Frame

/-!
# Leaves laid over a record

A service can reply to whatever it wants: to locations that were not read, to locations that a
plan only passes through, to fields that are not there. All that is known of the replacements
made of a reply is that they are leaves. A leaf has nothing below it and fits no task, so that a
plan that writes one before its last task fails. What a plan writes when it succeeds is at the
end of all its tasks, and it got there over nodes that no other write has put in its way.

## Main definitions

* `Matches`: the locations at which all tasks have taken a step
* `Overlaid`: records with leaves laid over another one at some locations

## Main results

* `matches_of_looksUp`: writing leaves along tasks writes at matched locations only
* `Overlaid.write`: writing leaves along a plan lays them over the locations it matches
-/

namespace RecordCipher

/-! ## Leaves have nothing below them -/

/-- A leaf has no fields. That it has no elements is among the laws of leaves. -/
class FieldlessLeaf (α : Type) [Leaf α] : Prop where
  field?_leaf : ∀ {leaf : α} (name : String), isLeaf leaf = true →
    ∃ e, Tree.field? leaf name = .error e

instance : FieldlessLeaf Json where
  field?_leaf name h := by
    obtain ⟨s, rfl⟩ := (Json.isLeaf_iff _).mp h
    exact ⟨_, rfl⟩

instance : FieldlessLeaf Datum where
  field?_leaf name h := by
    obtain ⟨value, rfl⟩ := Datum.exists_scalar_of_isLeaf h
    exact ⟨_, rfl⟩

variable {α : Type} [Leaf α]

/-- A leaf stands at a location. -/
def LeafAt (l : Location) (node : α) : Prop :=
  ∃ leaf, nodeAt? l node = .ok (some leaf) ∧ isLeaf leaf = true

/-- Nothing is below a node. -/
def Childless (node : α) : Prop :=
  ∀ step child, Tree.child? node step ≠ .ok (some child)

theorem Childless.eq_nil {node reached : α} {l : Location} (h : Childless node)
    (hl : nodeAt? l node = .ok (some reached)) : l = [] := by
  cases l with
  | nil => rfl
  | cons step below =>
    rw [nodeAt?_cons] at hl
    rcases hc : Tree.child? node step with e | _ | child <;> simp only [hc] at hl
    · cases hl
    · cases hl
    · exact absurd hc (h step child)

/-- A node without fields and elements has nothing below it. -/
theorem childless_of_error {node : α}
    (hfield : ∀ name, ∃ e, Tree.field? node name = .error e)
    (helems : Tree.elements? node = none) : Childless node := by
  intro step child
  cases step with
  | field name =>
    obtain ⟨e, he⟩ := hfield name
    simp [Tree.child?, he]
  | index i => simp [Tree.child?, Tree.element?, helems]

variable [LawfulLeaf α]

theorem childless_of_isNull {node : α} (h : Tree.isNull node = true) : Childless node :=
  childless_of_error (fun _ => LawfulTree.field?_of_isNull h) (LawfulTree.elements?_of_isNull h)

theorem LeafAt.congr {a b : α} {l l' : Location} (h : LeafAt l a)
    (hhead : headAt l a = headAt l' b) : LeafAt l' b := by
  obtain ⟨leaf, hnode, hleaf⟩ := h
  obtain ⟨node, hnode', hsame⟩ := exists_nodeAt?_of_headAt_eq hhead hnode
  exact ⟨node, hnode', by rw [isLeaf_congr hsame, hleaf]⟩

/-! ## Locations that tasks match -/

/-- Tasks match a location: each of them can be followed and takes one step, and the nodes that
the others go on with are there and not null. The last step may lead to a field that is absent,
and to a field or an element that is null. -/
def Matches : List Task → α → Location → Prop
  | [], _, l => l = []
  | _ :: _, _, [] => False
  | task :: rest, node, step :: below => task.Fits node ∧ task.LooksUp node step ∧
      (rest = [] ∧ below = [] ∨ ∃ child, Tree.child? node step = .ok (some child) ∧
        Tree.isNull child = false ∧ Matches rest child below)

/-! ## Records with leaves laid over them -/

/-- Leaves stand at some of the allowed locations, and apart from what is at and below them the
records are the same. -/
def Overlaid (allowed : Location → Prop) (record current : α) : Prop :=
  ∀ l, headAt l current = headAt l record ∨
    ∃ w, w <+: l ∧ allowed w ∧ LeafAt w current

section Overlaid

variable {allowed : Location → Prop} {record current : α}

theorem Overlaid.refl (allowed : Location → Prop) (record : α) :
    Overlaid allowed record record := fun _ => .inl rfl

/-- A node that is no leaf is as it was. -/
theorem Overlaid.head_eq (h : Overlaid allowed record current)
    (hleaf : isLeaf current = false) : head current = head record := by
  rcases h [] with hheads | ⟨w, hw, -, leaf, hnode, hleaf'⟩
  · simpa using hheads
  · obtain rfl := List.prefix_nil.mp hw
    obtain rfl : current = leaf := by simpa using hnode
    rw [hleaf] at hleaf'
    cases hleaf'

/-- One step below a node, what is no leaf was there before, with leaves laid over it. -/
theorem Overlaid.child (h : Overlaid allowed record current) (hleaf : isLeaf current = false)
    {child : α} {step : Location.Step} (hchild : Tree.child? current step = .ok (some child))
    (hleaf' : isLeaf child = false) : ∃ old, Tree.child? record step = .ok (some old) ∧
      Overlaid (fun w => allowed (step :: w)) old child := by
  -- a leaf at or above a location below the child is one at or below the child
  have below : ∀ w, LeafAt w current → ∀ l, w <+: step :: l →
      ∃ v, w = step :: v ∧ v <+: l ∧ LeafAt v child := by
    rintro w ⟨leaf, hnode, hisLeaf⟩ l hw
    rcases List.prefix_cons_iff.mp hw with rfl | ⟨v, rfl, hv⟩
    · obtain rfl : current = leaf := by simpa using hnode
      rw [hleaf] at hisLeaf
      cases hisLeaf
    · rw [nodeAt?_cons, hchild] at hnode
      exact ⟨v, rfl, hv, leaf, hnode, hisLeaf⟩
  obtain ⟨old, hold⟩ : ∃ old, Tree.child? record step = .ok (some old) := by
    rcases h [step] with hheads | ⟨w, hw, -, hleafAt⟩
    · obtain ⟨old, hold, -⟩ := exists_nodeAt?_of_headAt_eq hheads (by simpa using hchild)
      exact ⟨old, by simpa using hold⟩
    · obtain ⟨v, rfl, hv, leaf, hnode, hisLeaf⟩ := below w hleafAt [] hw
      obtain rfl := List.prefix_nil.mp hv
      obtain rfl : child = leaf := by simpa using hnode
      rw [hleaf'] at hisLeaf
      cases hisLeaf
  refine ⟨old, hold, fun l => ?_⟩
  rcases h (step :: l) with hheads | ⟨w, hw, hallowed, hleafAt⟩
  · left
    rwa [headAt_cons, headAt_cons, hchild, hold] at hheads
  · obtain ⟨v, rfl, hv, hleafAt'⟩ := below w hleafAt l hw
    exact .inr ⟨v, hv, hallowed, hleafAt'⟩

/-- One step below a node that is no leaf, something still is where something was. -/
theorem Overlaid.exists_child? (h : Overlaid allowed record current)
    (hleaf : isLeaf current = false) {old : α} {step : Location.Step}
    (hold : Tree.child? record step = .ok (some old)) :
    ∃ child, Tree.child? current step = .ok (some child) := by
  rcases h [step] with hheads | ⟨w, hw, -, leaf, hnode, hisLeaf⟩
  · obtain ⟨child, hchild, -⟩ := exists_nodeAt?_of_headAt_eq hheads.symm (by simpa using hold)
    exact ⟨child, by simpa using hchild⟩
  · rcases List.prefix_cons_iff.mp hw with rfl | ⟨v, rfl, hv⟩
    · obtain rfl : current = leaf := by simpa using hnode
      rw [hleaf] at hisLeaf
      cases hisLeaf
    · obtain rfl := List.prefix_nil.mp hv
      exact ⟨leaf, by simpa using hnode⟩

end Overlaid

/-! ## Writing leaves along tasks -/

/-- All replacements are leaves. -/
def Replacements.AllLeaves (replacements : Replacements α) : Prop :=
  ∀ path value, replacements.get? path = some value → isLeaf value = true

theorem Replacements.AllLeaves.allSound {replacements : Replacements α}
    (h : replacements.AllLeaves) : replacements.AllSound :=
  fun path value hget => LawfulLeaf.sound_leaf (h path value hget)

variable {replacements : Replacements α} {allowed : Location → Prop}

/-- What was written last stands there. -/
theorem Plan.Writes.leafAt {plan : Plan} {current out : α} (hR : replacements.AllLeaves)
    (hs : Sound current) (h : plan.write current replacements = .ok out) {w : Location} {value : α}
    (hw : plan.Writes current replacements w value) : LeafAt w out := by
  have hheads : headAt (w ++ []) out = headAt [] value := by
    apply Plan.headAt_write_of_writes hR.allSound hs h hw
    intro w' value' _ hbefore hbefore'
    rw [List.append_nil] at hbefore'
    exact hbefore'.eq_of_length_le hbefore.length_le
  rw [List.append_nil] at hheads
  have hvalue : LeafAt [] value := ⟨value, by simp, hR _ _ hw.2⟩
  exact hvalue.congr hheads.symm

variable [FieldlessLeaf α]

theorem childless_of_isLeaf {node : α} (h : isLeaf node = true) : Childless node :=
  childless_of_error (fun name => FieldlessLeaf.field?_leaf name h) (LawfulLeaf.elements?_leaf h)

/-- No task can be followed at a leaf. -/
theorem Task.Fits.not_isLeaf {task : Task} {node : α} (h : task.Fits node) :
    isLeaf node = false := by
  by_contra hleaf
  have hleaf : isLeaf node = true := by simpa using hleaf
  cases task with
  | field name =>
    obtain ⟨child, hchild⟩ := h
    obtain ⟨e, he⟩ := FieldlessLeaf.field?_leaf name hleaf
    rw [he] at hchild
    cases hchild
  | elements selection =>
    obtain ⟨items, helems, -⟩ := h
    rw [LawfulLeaf.elements?_leaf hleaf] at helems
    cases helems

/-- Nothing can be written below a leaf. -/
theorem not_isLeaf_of_writeBelow (hR : replacements.AllLeaves) {task : Task} {rest : List Task}
    {here : Location} {node out : α} (hs : Sound node)
    (h : writeBelow replacements (task :: rest) here node = .ok out) : isLeaf node = false := by
  have below := writeBelow_cons hR.allSound hs h
  rw [← isLeaf_congr below.head_eq]
  exact below.fits.not_isLeaf

/-- What writing leaves along tasks looks up and finds a leaf for is matched by all of them, and
was so before any leaves were laid over the record. -/
theorem matches_of_looksUp (hR : replacements.AllLeaves) {tasks : List Task} {here l : Location}
    {record current out : α} (hs : Sound current) (hread : Readable tasks record)
    (hover : Overlaid allowed record current)
    (h : writeBelow replacements tasks here current = .ok out)
    (hlooks : LooksUp replacements tasks here current l) {value : α}
    (hvalue : replacements.get? (here ++ l).text = some value) : Matches tasks record l := by
  -- Induction on the tasks. None of them meets a leaf, so all go over what was there before.
  induction tasks generalizing here l record current out allowed with
  | nil => exact hlooks.elim
  | cons task rest ih =>
    cases l with
    | nil => exact hlooks.elim
    | cons step l =>
      have below := writeBelow_cons hR.allSound hs h
      have hnode := not_isLeaf_of_writeBelow hR hs h
      obtain ⟨hstep, hrest⟩ := hlooks
      refine ⟨hread.1, hstep.congr (hover.head_eq hnode), ?_⟩
      obtain ⟨after, -, hdesc⟩ := below.descends step hstep
      rcases hrest with rfl | ⟨child, hchild, hnull, hlooks'⟩
      · -- a leaf is written here, so that there cannot be another task
        rw [settled_of_get? hvalue] at hdesc
        have hleaf := hR _ _ hvalue
        obtain ⟨_, -, written⟩ := hdesc.of_not_null (LawfulLeaf.isNull_leaf hleaf)
        cases rest with
        | nil => exact .inl ⟨rfl, rfl⟩
        | cons next rest =>
          have hnot := not_isLeaf_of_writeBelow hR (hR.allSound _ _ hvalue) written
          simp [hleaf] at hnot
      · right
        have hsound := sound_settled hR.allSound hs hchild
        have hsettled := settled_eq_some hchild
        rw [hchild] at hdesc
        obtain ⟨_, -, written⟩ := hdesc.of_not_null hnull
        cases rest with
        | nil => exact hlooks'.elim
        | cons next rest =>
          -- the others go on here, so this is no leaf, and was there before
          have hleaf := not_isLeaf_of_writeBelow hR hsound written
          have hchild' : Tree.child? current step = .ok (some child) := by
            rcases hsettled with hget | hchild'
            · simp [hR _ _ hget] at hleaf
            · exact hchild'
          obtain ⟨old, hold, hover'⟩ := hover.child hnode hchild' hleaf
          have hnull' : Tree.isNull old = false := by
            rw [← LawfulTree.isNull_congr (hover'.head_eq hleaf), hnull]
          exact ⟨old, hold, hnull', ih hsound (hread.2 step old hstep.1 hold hnull') hover'
            written hlooks' (by simpa using hvalue)⟩

/-! ## Writing leaves along a plan -/

section Plan

variable {plan : Plan} {record current out : α}

/-- What writing leaves along a plan writes is matched by the plan in the record, whatever leaves
were laid over it. -/
theorem Plan.Writes.matches (hR : replacements.AllLeaves) (hs : Sound current)
    (hread : Readable plan.tasks record) (hover : Overlaid allowed record current)
    (h : plan.write current replacements = .ok out) {w : Location} {value : α}
    (hw : plan.Writes current replacements w value) : Matches plan.tasks record w := by
  obtain ⟨hlooks, hvalue⟩ := hw
  rw [Plan.write_eq_ok_iff, SortedMap.isEmpty_eq_false_of_get? hvalue] at h
  unfold Plan.LooksUp at hlooks
  cases htasks : plan.tasks with
  | nil =>
    rw [htasks] at hlooks
    exact hlooks
  | cons task rest =>
    rw [htasks] at hlooks hread
    have h : writeBelow replacements (task :: rest) Location.root current = .ok out := by
      simpa [htasks] using h
    exact matches_of_looksUp hR hs hread hover h hlooks hvalue

/-- Writing leaves along a plan lays them over locations that the plan matches. -/
theorem Overlaid.write (hR : replacements.AllLeaves) (hs : Sound current)
    (hread : Readable plan.tasks record)
    (hallowed : ∀ l, Matches plan.tasks record l → allowed l)
    (hover : Overlaid allowed record current)
    (h : plan.write current replacements = .ok out) : Overlaid allowed record out := by
  intro l
  by_cases hwritten : ∃ w value, plan.Writes current replacements w value ∧ w <+: l
  · obtain ⟨w, value, hw, hbefore⟩ := hwritten
    exact .inr ⟨w, hbefore, hallowed w (hw.matches hR hs hread hover h), hw.leafAt hR hs h⟩
  · -- nothing was written at or above, neither here nor at the leaf above
    have same : ∀ u, u <+: l → headAt u out = headAt u current := by
      intro u hu
      apply Plan.headAt_write hR.allSound hs h
      intro w value hw hbefore
      exact hwritten ⟨w, value, hw, hbefore.trans hu⟩
    rcases hover l with hheads | ⟨w, hbefore, hw, hleaf⟩
    · exact .inl ((same l (List.prefix_refl l)).trans hheads)
    · exact .inr ⟨w, hbefore, hw, hleaf.congr (same w hbefore).symm⟩

end Plan

end RecordCipher
