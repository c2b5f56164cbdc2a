import RecordCipher.Proofs.Pipeline.Calls
import RecordCipher.Proofs.Pipeline.Confinement
import RecordCipher.Proofs.Plan.Footprint

/-!
# What a pipeline does not look at

A pipeline takes two documents that differ in the value or the presence of one member of one
object. If none of its expressions asks the object for this member, and the object is not part of
what the condition compares, then the member has no influence: the service is asked for the same,
if it is asked at all, and on the same reply the documents are refused for the same reason, or
become documents that again differ in this member only.

## Main definitions

* `Json.DifferInMember`: documents that differ in one member of one object
* `Prepared.Ignores`: a pipeline that does not ask for a member of an object
* `Pipeline.RunAlike`: runs that ask the service for the same, and do the same with the reply

## Main results

* `Prepared.batch_eq`, `Prepared.update_same`: the same items are collected, and any reply is
  written back alike
* `Pipeline.transform_differInMember`: whole runs
-/

namespace RecordCipher

/-! ## Documents that differ in a member -/

namespace Json

/-- Two documents differ at most in the value or the presence of one member of one object. -/
structure DifferInMember (parent : Location) (key : String) (a b : Json) : Prop where
  object : ∃ members, nodeAt? parent a = .ok (some (.object members))
  headAt_eq : ∀ l, ¬ parent.field key <+: l → headAt l a = headAt l b

variable {parent : Location} {key : String} {a b : Json}

theorem DifferInMember.sameOutside (h : DifferInMember parent key a b) (ha : Sound a)
    (hb : Sound b) : SameOutside (parent.field key) Location.root a b :=
  ⟨ha, hb, h.headAt_eq⟩

/-- Objects with the same members but for one key. -/
theorem differInMember_object {members members' : List (String × Json)}
    (same : ∀ name, name ≠ key → member? members name = member? members' name) :
    DifferInMember Location.root key (object members) (object members') where
  object := ⟨members, rfl⟩
  headAt_eq l hl := by
    match l with
    | [] => rfl
    | .index i :: below => rfl
    | .field name :: below =>
      apply headAt_cons_congr
      rw [child?_field_object, child?_field_object, same name]
      rintro rfl
      exact hl ⟨below, rfl⟩

/-- One step below two documents there are such that differ in a member, and everything else is
the same. -/
theorem DifferInMember.replaced {step : Location.Step} {c d : Json}
    (h : DifferInMember parent key c d) (hc : Tree.child? a step = .ok (some c))
    (hd : Replaced a step d b) : DifferInMember (step :: parent) key a b where
  object := by
    obtain ⟨members, hmembers⟩ := h.object
    exact ⟨members, by rw [nodeAt?_cons, hc]; exact hmembers⟩
  headAt_eq l hl := by
    cases l with
    | nil => rw [headAt_nil, headAt_nil, hd.head_eq]
    | cons other below =>
      by_cases hstep : other = step
      · subst hstep
        rw [headAt_cons, headAt_cons, hc, hd.child?_self]
        apply h.headAt_eq
        rintro ⟨rest, rfl⟩
        exact hl ⟨rest, rfl⟩
      · exact headAt_cons_congr (hd.child?_of_ne other hstep).symm below

end Json

open Json (DifferInMember)

/-! ## Collecting items -/

section Collecting

variable {α : Type} [Leaf α] [LawfulLeaf α]

/-- The items of values are decided by their heads. -/
theorem itemsOf_congr {expression : String} {entries entries' : List (String × α)}
    (h : (entries.map fun entry => (entry.1, head entry.2)) =
      entries'.map fun entry => (entry.1, head entry.2)) :
    itemsOf expression entries = itemsOf expression entries' := by
  induction entries generalizing entries' with
  | nil =>
    obtain rfl := List.map_eq_nil_iff.mp h.symm
    rfl
  | cons entry rest ih =>
    cases entries' with
    | nil => cases h
    | cons entry' rest' =>
      obtain ⟨path, node⟩ := entry
      obtain ⟨path', node'⟩ := entry'
      obtain ⟨⟨rfl, hhead⟩, hrest⟩ : (path = path' ∧ head node = head node') ∧ _ := by
        simpa using h
      rw [itemsOf, itemsOf, LawfulLeaf.toItem?_congr hhead, LawfulTree.kind_congr hhead,
        ih hrest]

variable {parent : Location} {key : String} {a b : α}

/-- Collecting items does not depend on a field that no plan asks for. -/
theorem collect_eq (h : SameOutside (parent.field key) Location.root a b) {plans : List Plan}
    (hfree : ∀ plan ∈ plans, parent.field key ∉ plan.touched a) :
    collect a plans = collect b plans := by
  induction plans with
  | nil => rfl
  | cons plan rest ih =>
    obtain ⟨hplan, hrest⟩ := List.forall_mem_cons.mp hfree
    have hread := Plan.read_same h hplan
    rw [collect, collect, ih hrest]
    rcases ha : plan.read a with e | values <;> rcases hb : plan.read b with e' | values' <;>
      rw [ha, hb] at hread <;> cases hread
    · rfl
    · next heads =>
      have hentries := congrArg SortedMap.entries heads
      show itemsOf plan.expression values.entries >>= _ =
        itemsOf plan.expression values'.entries >>= _
      rw [itemsOf_congr hentries]

end Collecting

/-! ## Pipelines that do not ask for a member -/

/-- No expression of a pipeline, when it is read in a record, asks the node at a location for a
field, and nothing that the condition selects is at or above this node. -/
structure Prepared.Ignores {α : Type} [Tree α] (p : Prepared) (record : α) (parent : Location)
    (key : String) : Prop where
  fields : ∀ plan ∈ p.fields.plans, parent.field key ∉ plan.touched record
  condition : ∀ c, p.condition = some c → parent.field key ∉ c.plan.touched record
  selected : ∀ c reached, p.condition = some c → reach c.plan.tasks record = .ok reached →
    ∀ here ∈ reached, ¬ here.location <+: parent

namespace Prepared

variable {p : Prepared} {parent : Location} {key : String} {a b : Json}

theorem concerns_eq (h : SameOutside (parent.field key) Location.root a b)
    (ignores : p.Ignores a parent key) : p.concerns a = p.concerns b := by
  unfold concerns
  cases hcondition : p.condition with
  | none => rfl
  | some c =>
    have hread : c.plan.read a = c.plan.read b :=
      Plan.read_eq h (ignores.condition c hcondition) fun reached hreached =>
        ignores.selected c reached hcondition hreached
    simp only [Condition.accepts, hread]

/-- The same items are collected, or the records are refused for the same reason. -/
theorem batch_eq (h : SameOutside (parent.field key) Location.root a b)
    (ignores : p.Ignores a parent key) : p.batch a = p.batch b := by
  rw [batch, batch, concerns_eq h ignores, collect_eq h ignores.fields]

/-- Writing back any reply takes the same course. -/
theorem splice_same (encoding : Encoding) (answers : List (FieldKey × Item)) {plans : List Plan}
    {hidden : Location} (h : SameOutside hidden Location.root a b)
    (hout : ∀ plan ∈ plans, ¬ Along plan.tasks hidden) :
    SameCourse (SameOutside hidden Location.root) (splice encoding answers plans a)
      (splice encoding answers plans b) := by
  -- Induction on the plans, over what those before have written.
  induction plans generalizing a b with
  | nil => exact .ok h
  | cons plan rest ih =>
    obtain ⟨hplan, hrest⟩ := List.forall_mem_cons.mp hout
    have sound : (repliesFor encoding plan.expression answers : Replacements Json).AllSound :=
      (allLeaves_repliesFor encoding plan.expression answers).allSound
    exact (Plan.write_same sound h hplan).bind fun a' b' _ hwritten => ih hwritten hrest

/-- Any reply is written back alike into documents that differ in a member which the pipeline does
not ask for, once they were read. -/
theorem update_same {settings : Settings} (hp : ofSettings settings = .ok p) (ha : Sound a)
    (hb : Sound b) (differ : DifferInMember parent key a b) (ignores : p.Ignores a parent key)
    {items : List (FieldKey × Item)} (hitems : collect a p.fields.plans = .ok items)
    (reply : ItemMap) :
    SameCourse (DifferInMember parent key) (p.update a reply) (p.update b reply) := by
  obtain ⟨members, hobject⟩ := differ.object
  -- all plans were read to their ends, without asking for the member
  have hout : ∀ plan ∈ p.fields.plans, ¬ Along plan.tasks (parent.field key) := by
    intro plan hm halong
    have hread := ((collect_ok_iff a p.fields.plans).mp ⟨items, hitems⟩ plan hm).1
    obtain ⟨done, rest, htasks, hreach⟩ := exists_reaches_of_along halong hobject rfl
    exact ignores.fields plan hm
      ((Plan.mem_touched_iff hread parent key).mpr ⟨done, rest, _, htasks, hreach⟩)
  have hsame := (splice_same p.settings.encoding reply.entries (differ.sameOutside ha hb)
    hout).mapError PipelineError.resolution
  refine hsame.mono fun a' b' ha' _ houtside => ⟨?_, houtside.headAt_eq⟩
  -- the object is no leaf, so that no leaf was laid over it
  obtain ⟨new, hnew, -, hhead | ⟨-, -, hleaf | hnull⟩⟩ :=
    (update_confined hp ha hitems ha').kept parent _ hobject
  · cases new with
    | object members' => exact ⟨members', hnew⟩
    | _ => cases hhead
  · cases hleaf
  · cases hnull

end Prepared

/-! ## Runs -/

/-- What is made of a record once the service has replied. -/
def Prepared.conclude {α : Type} [Leaf α] (p : Prepared) (record : α) :
    Except ServiceError ItemMap → Except PipelineError α
  | .error e => .error (.service e)
  | .ok reply => p.update record reply

namespace Pipeline

variable {m : Type → Type} [Monad m]

/-- For a record that makes a batch, the service is asked, and the reply decides the rest. -/
theorem transform_of_batch {α : Type} [Leaf α] {p : Pipeline m} {record : α} {items : ItemMap}
    (h : p.batch record = .ok items) (hne : items.isEmpty = false) :
    p.transform record =
      p.service.process items >>= fun reply => pure (p.conclude record reply) := by
  unfold transform
  rw [h]
  simp only [hne, Bool.false_eq_true, if_false]
  refine congrArg _ (funext fun reply => ?_)
  cases reply <;> rfl

/-- Two runs of a pipeline ask its service for the same batches, one or none, and on the same
reply come to results that are related. -/
inductive RunAlike {β : Type} (p : Pipeline m) (R : β → β → Prop) :
    List ItemMap → m β → m β → Prop where
  /-- The service is not asked. -/
  | silent {r r' : β} (related : R r r') : RunAlike p R [] (pure r) (pure r')
  /-- The service is asked once, and what becomes of its reply is related. -/
  | exchange {items : ItemMap} {f f' : Except ServiceError ItemMap → β}
    (related : ∀ reply, R (f reply) (f' reply)) :
    RunAlike p R [items] (p.service.process items >>= fun reply => pure (f reply))
      (p.service.process items >>= fun reply => pure (f' reply))

variable [LawfulMonad m]

/-- Two documents differ in one member of one object, and a pipeline does not ask the first one for
it. Then its service is asked for the same for both, or for neither, and on the same reply both
are refused for the same reason, or both become documents that differ in this member only. -/
theorem transform_differInMember {settings : Settings} {p : Pipeline m}
    (hp : Prepared.ofSettings settings = .ok p.toPrepared) {parent : Location} {key : String}
    {a b : Json} (ha : Sound a) (hb : Sound b) (differ : DifferInMember parent key a b)
    (ignores : p.Ignores a parent key) :
    ∃ calls, Asks (p.observed.transform a) (p.transform a) calls ∧
      Asks (p.observed.transform b) (p.transform b) calls ∧
      p.RunAlike (SameCourse (DifferInMember parent key)) calls (p.transform a)
        (p.transform b) := by
  have hbatch : p.batch a = p.batch b := Prepared.batch_eq (differ.sameOutside ha hb) ignores
  have hcalls : p.calls b = p.calls a := by rw [Prepared.calls, Prepared.calls, hbatch]
  refine ⟨p.calls a, p.transform_asks a, hcalls ▸ p.transform_asks b, ?_⟩
  cases hitems : p.batch a with
  | error e =>
    rw [Prepared.calls, transform, transform, ← hbatch, hitems]
    exact .silent (.error e)
  | ok items =>
    cases hne : items.isEmpty with
    | true =>
      rw [Prepared.calls, transform, transform, ← hbatch, hitems]
      simp only [hne, if_true]
      exact .silent (.ok differ)
    | false =>
      obtain ⟨collected, hcollected⟩ := Prepared.exists_collect_of_batch hitems hne
      rw [transform_of_batch hitems hne, transform_of_batch (hbatch ▸ hitems) hne,
        Prepared.calls, hitems]
      simp only [hne, Bool.false_eq_true, if_false]
      refine .exchange fun reply => ?_
      cases reply with
      | error e => exact .error _
      | ok reply => exact Prepared.update_same hp ha hb differ ignores hcollected reply

/-- A pipeline for documents with a certain text in their field `k`, and for a text in each element
of their field `l`. -/
def itemized : Pipeline Id where
  settings := { fields := ["$.l[*].s"], mode := .encrypt, filter := some ⟨"$.k", "u"⟩ }
  fields := ⟨[⟨"$.l[*].s", [.field "l", .elements .every, .field "s"]⟩]⟩
  condition := some ⟨"$.k", "u", ⟨"$.k", [.field "k"]⟩⟩
  service := Service.plain fun items => pure (.ok (items.mapValues Item.backwards))

/-- A document with that text, and two elements. -/
def itemizedDocument (first : List (String × Json)) : Json :=
  .object [("k", .string "u"), ("l", .array [.object first, .object [("s", .string "yz")]])]

/-- Whether the first element has a field `t` has no influence. -/
theorem transform_differInMember_nested :
    ∃ calls, Asks (itemized.observed.transform
          (itemizedDocument [("s", .string "x"), ("t", .string "z")]))
        (itemized.transform (itemizedDocument [("s", .string "x"), ("t", .string "z")])) calls ∧
      Asks (itemized.observed.transform (itemizedDocument [("s", .string "x")]))
        (itemized.transform (itemizedDocument [("s", .string "x")])) calls ∧
      itemized.RunAlike (SameCourse (DifferInMember [.field "l", .index 0] "t")) calls
        (itemized.transform (itemizedDocument [("s", .string "x"), ("t", .string "z")]))
        (itemized.transform (itemizedDocument [("s", .string "x")])) := by
  have sound : Sound (itemizedDocument [("s", .string "x"), ("t", .string "z")]) ∧
      Sound (itemizedDocument [("s", .string "x")]) := by
    show Json.Sound _ ∧ Json.Sound _
    simp [itemizedDocument, InKeyOrder, show compare "k" "l" = .lt by decide,
      show compare "s" "t" = .lt by decide]
  have differ : DifferInMember [.field "l", .index 0] "t"
      (itemizedDocument [("s", .string "x"), ("t", .string "z")])
      (itemizedDocument [("s", .string "x")]) := by
    have inner : DifferInMember Location.root "t"
        (.object [("s", .string "x"), ("t", .string "z")]) (.object [("s", .string "x")]) := by
      apply Json.differInMember_object
      intro name hne
      simp [member?, hne.symm]
    exact (inner.replaced rfl (Json.replaced_set (by simp) _)).replaced rfl
      (Json.replaced_setField rfl)
  have ignores : itemized.Ignores (itemizedDocument [("s", .string "x"), ("t", .string "z")])
      [.field "l", .index 0] "t" := by
    constructor
    · intro plan hm
      obtain rfl := List.mem_singleton.mp hm
      decide
    · rintro c ⟨⟩
      decide
    · rintro c reached ⟨⟩ ⟨⟩ here hm
      obtain rfl := List.mem_singleton.mp hm
      decide
  have prepared : Prepared.ofSettings itemized.settings = .ok itemized.toPrepared := rfl
  exact transform_differInMember prepared sound.1 sound.2 differ ignores

end Pipeline

end RecordCipher
