import RecordCipher.Proofs.Exchange.Overlay
import RecordCipher.Proofs.Pipeline.RoundTrip

/-!
# What a service can do to a record

A service is asked for the items of the fields that are configured, and may reply to anything.
Writing its reply back lays leaves over locations that the plans match in the record as it was,
one plan after another. Since the record was read along the same plans before, what stood at
these locations were leaves, or nothing, or a null. Nothing is lost by putting a leaf there, and
nothing is gained below it.

## Main definitions

* `Settings.Matches`: the locations of a record that a configured expression matches
* `Confined`: records that differ in leaves at some of these locations

## Main results

* `splice_overlaid`: writing back any reply lays leaves over matched locations
* `Prepared.update_confined`: a record that was read differs at matched locations only, then
* `Pipeline.transform_confined`: whatever a service does, and whatever it replies
-/

namespace RecordCipher

/-! ## Writing back any reply -/

section Splice

variable {α : Type} [Leaf α] [LawfulLeaf α]

/-- The replacements made of a reply are leaves. -/
theorem allLeaves_repliesFor (encoding : Encoding) (expression : String)
    (answers : List (FieldKey × Item)) :
    (repliesFor encoding expression answers : Replacements α).AllLeaves := by
  intro path value hget
  obtain ⟨⟨key, item⟩, -, hentry⟩ := List.mem_filterMap.mp (SortedMap.mem_of_get?_ofList hget)
  dsimp only at hentry
  split at hentry
  · obtain ⟨-, rfl⟩ : key.path = path ∧ Leaf.ofItem encoding item = value := by
      simpa using hentry
    exact LawfulLeaf.isLeaf_ofItem encoding item
  · cases hentry

/-- Writing back any reply lays leaves over the locations that the plans match in the record. -/
theorem splice_overlaid [FieldlessLeaf α] {encoding : Encoding}
    {answers : List (FieldKey × Item)} {plans : List Plan} {allowed : Location → Prop}
    {record current out : α} (hs : Sound current)
    (hread : ∀ plan ∈ plans, Readable plan.tasks record)
    (hallowed : ∀ plan ∈ plans, ∀ l, Matches plan.tasks record l → allowed l)
    (hover : Overlaid allowed record current)
    (h : splice encoding answers plans current = .ok out) : Overlaid allowed record out := by
  -- Induction on the plans, over the record as it was and what the plans before have made of it.
  induction plans generalizing current with
  | nil =>
    obtain rfl : current = out := by simpa [splice] using h
    exact hover
  | cons plan rest ih =>
    obtain ⟨written, hwrite, h⟩ := bind_eq_ok_iff.mp h
    have leaves : (repliesFor encoding plan.expression answers : Replacements α).AllLeaves :=
      allLeaves_repliesFor encoding plan.expression answers
    obtain ⟨hread, hrest⟩ := List.forall_mem_cons.mp hread
    obtain ⟨hallowed, hallowed'⟩ := List.forall_mem_cons.mp hallowed
    exact ih (Plan.sound_write leaves.allSound hs hwrite) hrest hallowed'
      (hover.write leaves hs hread hallowed hwrite) h

end Splice

/-! ## Records that were read -/

section Confined

variable {α : Type} [Leaf α]

/-- The locations of a record that a configured expression matches with all its tasks. -/
def Settings.Matches (s : Settings) (record : α) (l : Location) : Prop :=
  ∃ text ∈ s.fields, ∃ plan, Plan.compileWithin s.effectiveLimits text = .ok plan ∧
    RecordCipher.Matches plan.tasks record l

theorem Task.Fits.exists_child? {task : Task} {node : α} {step : Location.Step}
    (h : task.Fits node) (hsel : task.selects step = true) :
    ∃ child, Tree.child? node step = .ok child := by
  cases task with
  | field name =>
    obtain rfl := (selects_field_iff name step).mp hsel
    exact h
  | elements selection =>
    obtain ⟨i, rfl, -⟩ := (selects_elements_iff selection step).mp hsel
    exact ⟨_, rfl⟩

/-- Where tasks match that lead to leaves only, there is a leaf, or a null, or nothing. -/
theorem Matches.before {tasks : List Task} {record : α} {l : Location}
    (hleaf : ∀ l node, Reaches tasks record l node → isLeaf node = true)
    (h : Matches tasks record l) : nodeAt? l record = .ok none ∨
      ∃ old, nodeAt? l record = .ok (some old) ∧
        (isLeaf old = true ∨ Tree.isNull old = true) := by
  induction tasks generalizing record l with
  | nil =>
    obtain rfl : l = [] := h
    exact .inr ⟨record, by simp, .inl (hleaf [] record ⟨rfl, rfl⟩)⟩
  | cons task rest ih =>
    cases l with
    | nil => exact h.elim
    | cons step below =>
      obtain ⟨hfits, hlooks, hrest⟩ := h
      rcases hrest with ⟨rfl, rfl⟩ | ⟨child, hchild, hnull, hrest⟩
      · -- the last task has found a leaf there, unless there is nothing to be found
        obtain ⟨child, hchild⟩ := hfits.exists_child? hlooks.1
        rw [nodeAt?_singleton, hchild]
        cases child with
        | none => exact .inl rfl
        | some old =>
          right
          refine ⟨old, rfl, ?_⟩
          cases hnull : Tree.isNull old with
          | true => exact .inr rfl
          | false => exact .inl (hleaf [step] old ⟨hlooks.1, old, hchild, hnull, rfl, rfl⟩)
      · rw [nodeAt?_cons, hchild]
        refine ih (fun l node hreach => ?_) hrest
        exact hleaf (step :: l) node ⟨hlooks.1, child, hchild, hnull, hreach⟩

/-- A record that differs from another in leaves that stand at allowed locations, in the place
of leaves or nulls, or where nothing was. Every node is still where it was, no array has become
longer or shorter, and apart from the leaves everything is as it was. -/
structure Confined [TreeHead α] (allowed : Location → Prop) (record out : α) : Prop where
  kept : ∀ l old, nodeAt? l record = .ok (some old) → ∃ new,
    nodeAt? l out = .ok (some new) ∧ Tree.length? new = Tree.length? old ∧
      (head new = head old ∨
        allowed l ∧ isLeaf new = true ∧ (isLeaf old = true ∨ Tree.isNull old = true))
  gained : ∀ l new, nodeAt? l out = .ok (some new) →
    (∃ old, nodeAt? l record = .ok (some old)) ∨
      nodeAt? l record = .ok none ∧ allowed l ∧ isLeaf new = true

variable [LawfulLeaf α]

theorem Confined.refl (allowed : Location → Prop) (record : α) :
    Confined allowed record record where
  kept _ old hold := ⟨old, hold, rfl, .inl rfl⟩
  gained _ new hnew := .inl ⟨new, hnew⟩

variable [FieldlessLeaf α]

/-- Leaves laid over leaves, nulls and nothing are confined. -/
theorem Overlaid.confined {allowed : Location → Prop} {record out : α}
    (h : Overlaid allowed record out)
    (hbefore : ∀ l, allowed l → nodeAt? l record = .ok none ∨
      ∃ old, nodeAt? l record = .ok (some old) ∧
        (isLeaf old = true ∨ Tree.isNull old = true)) : Confined allowed record out where
  kept l old hold := by
    rcases h l with hheads | ⟨w, ⟨below, rfl⟩, hw, leaf, hnode, hleaf⟩
    · obtain ⟨new, hnew, hhead⟩ := exists_nodeAt?_of_headAt_eq hheads.symm hold
      exact ⟨new, hnew, LawfulTree.length?_congr hhead, .inl hhead⟩
    · rcases hbefore w hw with hnone | ⟨before, hwas, hkind⟩
      · rw [nodeAt?_append_of_none hnone] at hold
        cases hold
      · -- nothing was below what stood there, so that this was it
        have childless : Childless before := hkind.elim childless_of_isLeaf childless_of_isNull
        rw [nodeAt?_append hwas] at hold
        obtain rfl := childless.eq_nil hold
        obtain rfl : before = old := by simpa using hold
        have hlength : Tree.length? before = none := by
          rw [Tree.length?, hkind.elim LawfulLeaf.elements?_leaf LawfulTree.elements?_of_isNull]
          rfl
        have hlength' : Tree.length? leaf = none := by
          rw [Tree.length?, LawfulLeaf.elements?_leaf hleaf]
          rfl
        rw [List.append_nil]
        exact ⟨leaf, hnode, hlength'.trans hlength.symm, .inr ⟨hw, hleaf, hkind⟩⟩
  gained l new hnew := by
    rcases h l with hheads | ⟨w, ⟨below, rfl⟩, hw, leaf, hnode, hleaf⟩
    · exact .inl ((exists_nodeAt?_congr hheads).mp ⟨new, hnew⟩)
    · -- nothing is below the leaf, so that this is the leaf itself
      rw [nodeAt?_append hnode] at hnew
      obtain rfl := (childless_of_isLeaf hleaf).eq_nil hnew
      obtain rfl : leaf = new := by simpa using hnew
      rw [List.append_nil]
      rcases hbefore w hw with hnone | ⟨before, hwas, -⟩
      · exact .inr ⟨hnone, hw, hleaf⟩
      · exact .inl ⟨before, hwas⟩

/-! ## Pipelines -/

/-- In a record that was read along the plans of a pipeline, leaves are laid over locations that
the configured expressions match, whatever reply is written back. -/
theorem Prepared.update_overlaid {settings : Settings} {p : Prepared}
    (hp : ofSettings settings = .ok p) {record out : α} (hs : Sound record)
    {items : List (FieldKey × Item)} (hitems : collect record p.fields.plans = .ok items)
    {reply : ItemMap} (h : p.update record reply = .ok out) :
    Overlaid (settings.Matches record) record out := by
  obtain ⟨-, hfields, -⟩ := Prepared.of_ofSettings hp
  have harvest := (collect_ok_iff record p.fields.plans).mp ⟨items, hitems⟩
  refine splice_overlaid hs (fun plan hm => (harvest plan hm).1) ?_ (.refl _ record)
    (mapError_eq_ok_iff.mp h)
  intro plan hm l hl
  obtain ⟨text, htext, hplan⟩ := (FieldPlans.mem_compile hfields plan).mp hm
  exact ⟨text, htext, plan, hplan, hl⟩

/-- A record that was read along the plans of a pipeline is confined to the locations that the
configured expressions match, whatever reply is written back. -/
theorem Prepared.update_confined {settings : Settings} {p : Prepared}
    (hp : ofSettings settings = .ok p) {record out : α} (hs : Sound record)
    {items : List (FieldKey × Item)} (hitems : collect record p.fields.plans = .ok items)
    {reply : ItemMap} (h : p.update record reply = .ok out) :
    Confined (settings.Matches record) record out := by
  obtain ⟨-, hfields, -⟩ := Prepared.of_ofSettings hp
  have harvest := (collect_ok_iff record p.fields.plans).mp ⟨items, hitems⟩
  apply (Prepared.update_overlaid hp hs hitems h).confined
  rintro l ⟨text, htext, plan, hplan, hl⟩
  have hm := (FieldPlans.mem_compile hfields plan).mpr ⟨text, htext, hplan⟩
  exact hl.before (harvest plan hm).2

omit [LawfulLeaf α] [FieldlessLeaf α] in
/-- A record that makes a batch was read along all plans. -/
theorem Prepared.exists_collect_of_batch {p : Prepared} {record : α} {batch : ItemMap}
    (h : p.batch record = .ok batch) (hne : batch.isEmpty = false) :
    ∃ items, collect record p.fields.plans = .ok items := by
  rcases Prepared.batch_eq_ok_iff.mp h with ⟨-, rfl⟩ | ⟨-, items, hitems, -⟩
  · cases hne
  · exact ⟨items, hitems⟩

namespace Pipeline

variable {m : Type → Type} [Monad m] [LawfulMonad m]

omit [LawfulLeaf α] [FieldlessLeaf α] in
/-- What a pipeline makes of a record is the record itself, or, once it was read along all plans,
the record with a reply written into it. -/
theorem always_updated (p : Pipeline m) (record : α) :
    Always (fun result => ∀ out, result = .ok out → out = record ∨ ∃ items reply,
      collect record p.fields.plans = .ok items ∧ p.update record reply = .ok out)
        (p.transform record) := by
  unfold transform
  cases hbatch : p.batch record with
  | error e => exact .pure (by simp)
  | ok items =>
    dsimp only
    split
    · -- without items the service is not asked
      apply Always.pure
      rintro out ⟨⟩
      exact .inl rfl
    · next hne =>
      obtain ⟨items, hitems⟩ := Prepared.exists_collect_of_batch hbatch (by simpa using hne)
      refine .bind (.trivial _) ?_
      rintro (e | reply) -
      · exact .pure (by simp)
      · apply Always.pure
        intro out hout
        exact .inr ⟨items, reply, hitems, hout⟩

theorem always_confined {settings : Settings} {p : Pipeline m}
    (hp : Prepared.ofSettings settings = .ok p.toPrepared) {record : α} (hs : Sound record) :
    Always (fun result => ∀ out, result = .ok out →
      Confined (settings.Matches record) record out) (p.transform record) := by
  apply (always_updated p record).mono
  intro result updated out hout
  rcases updated out hout with rfl | ⟨items, reply, hitems, hreply⟩
  · exact .refl _ out
  · exact Prepared.update_confined hp hs hitems hreply

/-- Whatever the service of a pipeline does, and whatever it replies, a document or a structured
record that the pipeline takes is confined to the locations that the configured expressions
match in it. -/
theorem transform_confined {settings : Settings} {p : Pipeline m}
    (hp : Prepared.ofSettings settings = .ok p.toPrepared) :
    (∀ record : Json, Sound record → Always (fun result => ∀ out, result = .ok out →
      Confined (settings.Matches record) record out) (p.transform record)) ∧
    ∀ record : Record, Sound record.toDatum → Always (fun result => ∀ out, result = .ok out →
      Confined (settings.Matches record.toDatum) record.toDatum out.toDatum)
        (p.transformRecord record) := by
  constructor
  · exact fun record hs => always_confined hp hs
  · intro record hs
    refine .bind (always_confined hp hs) ?_
    intro result confined
    apply Always.pure
    intro out hout
    obtain ⟨value, hvalue, hrecord⟩ := bind_eq_ok_iff.mp hout
    rw [← (asRecord_eq_ok_iff value out).mp hrecord]
    exact confined value hvalue

end Pipeline

end Confined

namespace Pipeline

/-- The pipeline of a service that has the same answers to every batch. -/
def answering (fields : List String) (plans : List Plan) (answers : List (FieldKey × Item)) :
    Pipeline Id where
  settings := { fields, mode := .encrypt }
  fields := ⟨plans⟩
  condition := none
  service := Service.plain fun _ => pure (.ok (SortedMap.ofList answers))

/-- Answers for a text, for fields that are null and absent, for a field that is not configured,
and for an expression that is not. -/
def talkative : Pipeline Id :=
  answering ["$.a", "$.l[*].b"]
    [⟨"$.a", [.field "a"]⟩, ⟨"$.l[*].b", [.field "l", .elements .every, .field "b"]⟩]
    [(⟨"$.a", "$.a"⟩, .text "1"), (⟨"$.l[*].b", "$.l[1].b"⟩, .text "2"),
      (⟨"$.l[*].b", "$.l[2].b"⟩, .text "3"), (⟨"$.a", "$.k"⟩, .text "5"),
      (⟨"$.k", "$.k"⟩, .text "6")]

/-- An answer for a field that is not set. -/
def completing : Pipeline Id :=
  answering ["$.a", "$.b"] [⟨"$.a", [.field "a"]⟩, ⟨"$.b", [.field "b"]⟩]
    [(⟨"$.b", "$.b"⟩, .text "4")]

/-- A document with two texts, and an array of a null and two objects. -/
def mixedDocument (text : String) (first second : List (String × Json)) : Json :=
  .object [("a", .string text), ("k", .string "s"),
    ("l", .array [.null, .object first, .object second])]

/-- A record with a text, and with another one if it is set. -/
def twoTexts (second : Option Datum) : Record where
  schema := .struct {} [⟨"a", 0, .scalar .string {}⟩, ⟨"b", 1, .scalar .string {}⟩]
  slots := [some (.scalar (.string "x")), second]

/-- The text, the null field and the absent one of the document get leaves, and so does the field
of the record that is not set. -/
theorem transform_confined_null_and_unset :
    Confined (Settings.Matches talkative.settings (mixedDocument "x" [("b", .null)] []))
      (mixedDocument "x" [("b", .null)] [])
      (mixedDocument "1" [("b", .string "2")] [("b", .string "3")]) ∧
    Confined (Settings.Matches completing.settings (twoTexts none).toDatum)
      (twoTexts none).toDatum (twoTexts (some (.scalar (.string "4")))).toDatum := by
  constructor
  · have sound : Sound (mixedDocument "x" [("b", .null)] []) := by
      show Json.Sound _
      simp [mixedDocument, InKeyOrder, show compare "a" "k" = .lt by decide,
        show compare "a" "l" = .lt by decide, show compare "k" "l" = .lt by decide]
    have hout : talkative.transform (mixedDocument "x" [("b", .null)] []) =
        pure (.ok (mixedDocument "1" [("b", .string "2")] [("b", .string "3")])) := rfl
    obtain ⟨proved, hproved⟩ := (transform_confined
      (show Prepared.ofSettings talkative.settings = .ok talkative.toPrepared from rfl)).1 _ sound
    exact proved.2 _ (hproved.symm.trans hout)
  · have sound : Sound (twoTexts none).toDatum := by
      show Datum.Sound _
      simp [twoTexts, Record.toDatum, Schema.fields, Schema.fieldNames, Schema.Placed,
        List.range_succ]
    have hout : completing.transformRecord (twoTexts none) =
        pure (.ok (twoTexts (some (.scalar (.string "4"))))) := rfl
    obtain ⟨proved, hproved⟩ := (transform_confined
      (show Prepared.ofSettings completing.settings = .ok completing.toPrepared from rfl)).2 _
        sound
    exact proved.2 _ (hproved.symm.trans hout)

end Pipeline

end RecordCipher
