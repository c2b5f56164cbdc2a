import RecordCipher.Proofs.Pipeline.RoundTrip

/-!
# The order of the configured fields

The plans of a pipeline are written back one after another, and may lead to the same leaves. When
the service makes of each item something that depends on the item alone, they all have the same
for the leaf they have in common, since each of them has found this leaf as it was before any of
them wrote. What a record becomes is then a matter of the leaf at each location that some plan
leads to, and not of the plan that comes last. A list of fields can be put in another order, and
fields can be repeated.

## Main definitions

* `Settings.SameFields`: settings with the same fields, in whatever order

## Main results

* `splice_itemwise`: what writing back the reply of such a service makes of a record
* `splice_congr_plans`: plans can be written back in another order
* `Pipeline.transform_fields_order`: the same for pipelines
-/

namespace RecordCipher

/-! ## Writing back what depends on items alone -/

section Itemwise

variable {α : Type} [Leaf α] [LawfulLeaf α] {encoding : Encoding} {f : Item → Item}
  {plans plans' : List Plan} {record out : α} {items items' : List (FieldKey × Item)}

/-- A record after every leaf that was found has been answered. Wherever some plan leads there is
what the service makes of the leaf that was there, and everything else is as it was. -/
structure AnsweredItemwise (encoding : Encoding) (f : Item → Item) (plans : List Plan)
    (record out : α) : Prop where
  sound : Sound out
  alike : Alike out record
  answered : ∀ plan ∈ plans, ∀ l leaf item, Reaches plan.tasks record l leaf →
    Leaf.toItem? leaf = some item →
      headAt l out = .ok (some (head (Leaf.ofItem encoding (f item) : α)))
  elsewhere : ∀ l, (¬ ∃ plan ∈ plans, ∃ leaf, Reaches plan.tasks record l leaf) →
    headAt l out = headAt l record

theorem splice_itemwise (nodup : (plans.map Plan.expression).Nodup) (hs : Sound record)
    (ht : Typed record) (hroot : RootUniform record)
    (hitems : collect record plans = .ok items)
    (h : splice encoding (replyWith f items).entries plans record = .ok out) :
    AnsweredItemwise encoding f plans record out := by
  have harvest := (collect_ok_iff record plans).mp ⟨items, hitems⟩
  have hread : ∀ plan ∈ plans, Readable plan.tasks record :=
    fun plan hplan => (harvest plan hplan).1
  obtain ⟨sound, alike, heads⟩ := splice_spec (SortedMap.get?_eq_some_iff _) hs ht hroot hread
    (answered_of_collect nodup hitems (SortedMap.get?_eq_some_iff _)
      fun _ => isSome_of_get?_replyWith) h
  refine ⟨sound, alike, ?_, fun l hled => ?_⟩
  · intro plan hplan l leaf item hreach hitem
    rw [heads l, lastAnswer_replyWith nodup hitems f hplan hreach hitem]
  · rw [heads l, lastAnswer_eq_none hread hled]

/-- What the service makes of a leaf is of the kind of the leaf. -/
theorem AnsweredItemwise.kind_eq (h : AnsweredItemwise encoding f plans record out) {plan : Plan}
    (hplan : plan ∈ plans) {l : Location} {leaf : α} {item : Item}
    (hreach : Reaches plan.tasks record l leaf) (hitem : Leaf.toItem? leaf = some item) :
    Tree.kind (Leaf.ofItem encoding (f item) : α) = Tree.kind leaf := by
  obtain ⟨written, hwritten, hlike⟩ := h.alike.symm.nodeAt? hreach.nodeAt?
  have hhead := h.answered plan hplan l leaf item hreach hitem
  rw [headAt_of_nodeAt? hwritten] at hhead
  rw [hlike.kind_eq]
  exact LawfulTree.kind_congr (by simpa using hhead.symm)

/-- There is one record that the reply of a service which goes by the items makes of another. -/
theorem AnsweredItemwise.unique {out' : α} (h : AnsweredItemwise encoding f plans record out)
    (h' : AnsweredItemwise encoding f plans' record out')
    (same : ∀ plan, plan ∈ plans ↔ plan ∈ plans')
    (hleaf : ∀ plan ∈ plans, ∀ l node, Reaches plan.tasks record l node →
      isLeaf node = true) : out = out' := by
  refine LawfulTree.ext h.sound h'.sound fun l => ?_
  by_cases hled : ∃ plan ∈ plans, ∃ leaf, Reaches plan.tasks record l leaf
  · obtain ⟨plan, hplan, leaf, hreach⟩ := hled
    obtain ⟨item, hitem⟩ := Option.isSome_iff_exists.mp (hleaf plan hplan l leaf hreach)
    rw [h.answered plan hplan l leaf item hreach hitem,
      h'.answered plan ((same plan).mp hplan) l leaf item hreach hitem]
  · have hled' : ¬ ∃ plan ∈ plans', ∃ leaf, Reaches plan.tasks record l leaf := by
      simpa only [← same] using hled
    rw [h.elsewhere l hled, h'.elsewhere l hled']

omit [LawfulLeaf α] in
/-- Plans that find something find the same when they are gone through in another order. -/
theorem collect_congr_plans (same : ∀ plan, plan ∈ plans ↔ plan ∈ plans')
    (h : collect record plans = .ok items) :
    ∃ items', collect record plans' = .ok items' ∧ (items' = [] ↔ items = []) := by
  have harvest := (collect_ok_iff record plans).mp ⟨items, h⟩
  simp only [same] at harvest
  obtain ⟨items', hitems'⟩ := (collect_ok_iff record plans').mpr harvest
  have hmem : ∀ entry, entry ∈ items' ↔ entry ∈ items := by
    rintro ⟨key, item⟩
    rw [mem_collect hitems', mem_collect h, Harvested, Harvested]
    simp only [same]
  refine ⟨items', hitems', ?_⟩
  rw [List.eq_nil_iff_forall_not_mem, List.eq_nil_iff_forall_not_mem]
  simp only [hmem]

/-- When the service goes by the items, plans can be written back in another order. -/
theorem splice_congr_plans (nodup : (plans.map Plan.expression).Nodup)
    (nodup' : (plans'.map Plan.expression).Nodup)
    (same : ∀ plan, plan ∈ plans ↔ plan ∈ plans') (hs : Sound record) (ht : Typed record)
    (hroot : RootUniform record) (hitems : collect record plans = .ok items)
    (hitems' : collect record plans' = .ok items')
    (h : splice encoding (replyWith f items).entries plans record = .ok out) :
    splice encoding (replyWith f items').entries plans' record = .ok out := by
  have harvest := (collect_ok_iff record plans).mp ⟨items, hitems⟩
  have answered := splice_itemwise nodup hs ht hroot hitems h
  obtain ⟨out', hout'⟩ : ∃ out',
      splice encoding (replyWith f items').entries plans' record = .ok out' := by
    apply exists_splice hs ht hroot
    · exact fun plan hm => (harvest plan ((same plan).mpr hm)).1
    · exact answered_of_collect nodup' hitems' (SortedMap.get?_eq_some_iff _)
        fun _ => isSome_of_get?_replyWith
    · intro plan hm l value leaf hget hreach
      -- the item is that of the leaf, of which the first order has written the same
      rw [get?_repliesFor (SortedMap.get?_eq_some_iff _), Option.map_eq_some_iff] at hget
      obtain ⟨answer, hanswer, rfl⟩ := hget
      obtain ⟨item, hitem, rfl⟩ := (get?_replyWith nodup' hitems' f _ _).mp hanswer
      have hplan := (same plan).mpr hm
      obtain ⟨found, hfound⟩ :=
        Option.isSome_iff_exists.mp ((harvest plan hplan).2 l leaf hreach)
      obtain rfl : item = found :=
        hitem.unique nodup' ⟨plan, hm, rfl, l, leaf, rfl, hreach, hfound⟩
      exact answered.kind_eq hplan hreach hfound
  have answered' := splice_itemwise nodup' hs ht hroot hitems' hout'
  rw [hout', answered.unique answered' same fun plan hplan => (harvest plan hplan).2]

end Itemwise

/-! ## Pipelines -/

/-- Settings that say the same but for the order of the fields, in which fields can be repeated. -/
structure Settings.SameFields (s s' : Settings) : Prop where
  eq_with : s' = { s with fields := s'.fields }
  mem_iff : ∀ text, text ∈ s.fields ↔ text ∈ s'.fields

theorem Settings.SameFields.symm {s s' : Settings} (h : s.SameFields s') : s'.SameFields s where
  eq_with := by
    rw [h.eq_with]
  mem_iff text := (h.mem_iff text).symm

namespace Prepared

variable {α : Type} [Leaf α]

variable {s s' : Settings} {p p' : Prepared}

/-- Settings with the same fields have the same plans, and the same condition. -/
theorem same_of_sameFields (hp : ofSettings s = .ok p) (hp' : ofSettings s' = .ok p')
    (same : s.SameFields s') : p.settings.encoding = p'.settings.encoding ∧
      p.condition = p'.condition ∧ ∀ plan, plan ∈ p.fields.plans ↔ plan ∈ p'.fields.plans := by
  obtain ⟨hsettings, hfields, -⟩ := of_ofSettings hp
  obtain ⟨hsettings', hfields', -⟩ := of_ofSettings hp'
  have hcondition := condition_of_ofSettings hp
  have hcondition' := condition_of_ofSettings hp'
  have hlimits : s'.effectiveLimits = s.effectiveLimits := by rw [same.eq_with]; rfl
  have hfilter : s'.filter = s.filter := by rw [same.eq_with]
  refine ⟨?_, ?_, fun plan => ?_⟩
  · rw [hsettings, hsettings', same.eq_with]
  · rw [hlimits, hfilter, hcondition] at hcondition'
    exact Option.map_injective (fun _ _ => Except.ok.inj) hcondition'
  · rw [FieldPlans.mem_compile hfields, FieldPlans.mem_compile hfields', hlimits]
    simp only [same.mem_iff]

variable [LawfulLeaf α]

/-- What a pipeline makes of a record is what one with the same fields makes of it. -/
theorem outcome_of_sameFields (hp : ofSettings s = .ok p) (hp' : ofSettings s' = .ok p')
    (same : s.SameFields s') {f : Item → Item} {record out : α} (hs : Sound record)
    (ht : Typed record) (hroot : RootUniform record) (h : p.outcome f record = .ok out) :
    p'.outcome f record = .ok out := by
  obtain ⟨hencoding, hcondition, hplans⟩ := same_of_sameFields hp hp' same
  obtain ⟨-, hfields, -⟩ := of_ofSettings hp
  obtain ⟨-, hfields', -⟩ := of_ofSettings hp'
  have hconcerns : p'.concerns record = p.concerns record := by
    rw [concerns, concerns, hcondition]
  rw [outcome_ok_iff] at h ⊢
  rw [hconcerns, ← hencoding]
  refine h.imp id (And.imp_right ?_)
  rintro ⟨items, hitems, hout⟩
  obtain ⟨items', hitems', hempty⟩ := collect_congr_plans hplans hitems
  refine ⟨items', hitems', ?_⟩
  simp only [hempty]
  split at hout
  · next hnil => rwa [if_pos hnil]
  · next hnil =>
    rw [if_neg hnil]
    exact splice_congr_plans (FieldPlans.nodup_of_compile hfields)
      (FieldPlans.nodup_of_compile hfields') hplans hs ht hroot hitems hitems' hout

theorem outcome_eq_ok_iff_of_sameFields (hp : ofSettings s = .ok p)
    (hp' : ofSettings s' = .ok p') (same : s.SameFields s') (f : Item → Item) {record : α}
    (hs : Sound record) (ht : Typed record) (hroot : RootUniform record) (out : α) :
    p.outcome f record = .ok out ↔ p'.outcome f record = .ok out :=
  ⟨outcome_of_sameFields hp hp' same hs ht hroot,
    outcome_of_sameFields hp' hp same.symm hs ht hroot⟩

end Prepared

namespace Pipeline

variable {m : Type → Type} [Monad m] [LawfulMonad m]

/-- Two computations come to results of which both are a success with the same value, or
neither is a success. -/
def SucceedAlike {β : Type} (x y : m (Except PipelineError β)) : Prop :=
  ∃ r r', Yields x r ∧ Yields y r' ∧ ∀ out, r = .ok out ↔ r' = .ok out

/-- Two pipelines with the same fields, in whatever order, make the same of every document, and
of every record made by creating it and putting values into it, or else both fail, when their
services apply one function to every item. -/
theorem transform_fields_order {s s' : Settings} {p p' : Pipeline m}
    (hp : Prepared.ofSettings s = .ok p.toPrepared)
    (hp' : Prepared.ofSettings s' = .ok p'.toPrepared) (same : s.SameFields s')
    {f : Item → Item}
    (hservice : ∀ items, Yields (p.service.process items) (.ok (items.mapValues f)))
    (hservice' : ∀ items, Yields (p'.service.process items) (.ok (items.mapValues f))) :
    (∀ record : Json, Sound record →
      SucceedAlike (p.transform record) (p'.transform record)) ∧
    ∀ record : Record, Datum.Built record.toDatum →
      SucceedAlike (p.transformRecord record) (p'.transformRecord record) := by
  constructor
  · intro record hs
    exact ⟨_, _, transform_yields hservice record, transform_yields hservice' record,
      Prepared.outcome_eq_ok_iff_of_sameFields hp hp' same f hs trivial record.rootUniform⟩
  · intro record built
    obtain ⟨hs, ht⟩ := built.sound_and_typed
    -- the root of a record is no leaf
    have hroot : RootUniform record.toDatum := by
      rintro leaf ⟨⟩
    have houtcome := Prepared.outcome_eq_ok_iff_of_sameFields hp hp' same f hs ht hroot
    refine ⟨_, _, transformRecord_yields hservice record, transformRecord_yields hservice' record,
      fun out => ?_⟩
    have hbind : ∀ x : Except PipelineError Datum,
        x.bind asRecord = .ok out ↔ ∃ value, x = .ok value ∧ asRecord value = .ok out :=
      fun x => bind_eq_ok_iff
    rw [hbind, hbind]
    simp only [houtcome]

/-- The pipeline that reads the configured fields of each record backwards. -/
def mirroring (fields : List String) (plans : List Plan) : Pipeline Id where
  settings := { fields, mode := .encrypt }
  fields := ⟨plans⟩
  condition := none
  service := Service.plain fun items => pure (.ok (items.mapValues Item.backwards))

/-- One field under two notations, in both orders and with repetitions. -/
theorem transform_fields_order_two_notations :
    (mirroring ["$['a']", "$.a", "$['a']"]
        [⟨"$['a']", [.field "a"]⟩, ⟨"$.a", [.field "a"]⟩]).transform
      (Json.object [("a", .string "xy"), ("b", .string "xy")]) =
        pure (.ok (.object [("a", .string "yx"), ("b", .string "xy")])) ∧
    (mirroring ["$['a']", "$.a", "$['a']"]
        [⟨"$['a']", [.field "a"]⟩, ⟨"$.a", [.field "a"]⟩]).transformRecord (textRecord "xy") =
      pure (.ok (textRecord "yx")) := by
  have same : Settings.SameFields { fields := ["$.a", "$['a']"], mode := .encrypt }
      { fields := ["$['a']", "$.a", "$['a']"], mode := .encrypt } := by
    refine ⟨rfl, fun text => ?_⟩
    simp only [List.mem_cons, List.not_mem_nil, or_false]
    tauto
  obtain ⟨documents, records⟩ := @transform_fields_order Id _ _ _ _
    (mirroring ["$.a", "$['a']"] [⟨"$.a", [.field "a"]⟩, ⟨"$['a']", [.field "a"]⟩])
    (mirroring ["$['a']", "$.a", "$['a']"] [⟨"$['a']", [.field "a"]⟩, ⟨"$.a", [.field "a"]⟩])
    rfl rfl same Item.backwards (fun items => Yields.pure _) (fun items => Yields.pure _)
  constructor
  · have sound : Sound (Json.object [("a", .string "xy"), ("b", .string "xy")]) := by
      show Json.Sound _
      simp [InKeyOrder, show compare "a" "b" = .lt by decide]
    obtain ⟨r, r', ⟨effect, hr⟩, ⟨effect', hr'⟩, alike⟩ := documents _ sound
    exact hr'.trans ((alike (.object [("a", .string "yx"), ("b", .string "xy")])).mp hr.symm)
  · obtain ⟨r, r', ⟨effect, hr⟩, ⟨effect', hr'⟩, alike⟩ := records _ (built_textRecord "xy")
    exact hr'.trans ((alike (textRecord "yx")).mp hr.symm)

end Pipeline

end RecordCipher
