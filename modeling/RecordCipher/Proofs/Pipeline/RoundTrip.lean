import RecordCipher.Proofs.Pipeline.Splice

/-!
# There and back

One pipeline puts ciphertexts in place of the leaves of a record, another one with the same
fields is to put the leaves back. The record that the first one makes is alike, so that the
second one follows the same plans to the same locations, and finds there what the first one put
there. That the first one succeeded shows that its leaves were of the kinds they took the place
of; therefore the second one succeeds in putting the old ones back.

## Main definitions

* `Restores`: what the one service makes of a leaf, the other one takes back
* `Yields`: a computation comes to a value, whatever else it does
* `Prepared.outcome`: what a pipeline makes of a record when its service answers every key

## Main results

* `splice_of_undoes`: a reply that undoes what distinguishes two alike records makes the one of
  the other
* `splice_splice`: a second reply undoes a first one
* `Pipeline.round_trip`: documents and structured records come back from a pipeline and its
  inverse as they were
-/

namespace RecordCipher

/-! ## Replies to every key -/

section Answers

variable {α : Type} [Leaf α]

/-- What the one service makes of a leaf, the other one takes back. -/
def Restores (encoding encoding' : Encoding) (encrypt decrypt : Item → Item) (leaf : α) :
    Prop :=
  ∀ item cipher, Leaf.toItem? leaf = some item →
    Leaf.toItem? (Leaf.ofItem encoding (encrypt item) : α) = some cipher →
      Leaf.ofItem encoding' (decrypt cipher) = leaf

/-- The reply of a service that applies a function to every item. -/
def replyWith (f : Item → Item) (items : List (FieldKey × Item)) : ItemMap :=
  (SortedMap.ofList items).mapValues f

variable {plans : List Plan} {record : α} {items : List (FieldKey × Item)}

theorem get?_replyWith (nodup : (plans.map Plan.expression).Nodup)
    (hitems : collect record plans = .ok items) (f : Item → Item) (key : FieldKey)
    (answer : Item) : (replyWith f items).get? key = some answer ↔
      ∃ item, Harvested plans record key item ∧ f item = answer := by
  rw [replyWith, SortedMap.get?_mapValues, Option.map_eq_some_iff]
  simp only [get?_collect nodup hitems]

theorem isSome_of_get?_replyWith {f : Item → Item} {key : FieldKey}
    (h : ((replyWith f items).get? key).isSome) : ((SortedMap.ofList items).get? key).isSome := by
  rw [replyWith, SortedMap.get?_mapValues] at h
  simpa using h

/-- What counts for a location that a plan leads to, when every key is answered. -/
theorem lastAnswer_replyWith (nodup : (plans.map Plan.expression).Nodup)
    (hitems : collect record plans = .ok items) (f : Item → Item) {plan : Plan}
    (hplan : plan ∈ plans) {l : Location} {leaf : α} {item : Item}
    (hreach : Reaches plan.tasks record l leaf) (hitem : Leaf.toItem? leaf = some item) :
    lastAnswer (replyWith f items).get? record plans l = some (f item) := by
  have hread : ∀ plan ∈ plans, Readable plan.tasks record :=
    fun plan hm => ((collect_ok_iff record plans).mp ⟨items, hitems⟩ plan hm).1
  -- some plan counts
  have counted : ∀ rest : List Plan, plan ∈ rest →
      (lastAnswer (replyWith f items).get? record rest l).isSome := by
    intro rest hm
    induction rest with
    | nil => cases hm
    | cons other rest ih =>
      rw [lastAnswer]
      rcases List.mem_cons.mp hm with rfl | hm
      · have hleads : plan.leadsTo record l = true :=
          (Plan.leadsTo_iff (hread plan hplan) l).mpr ⟨leaf, hreach⟩
        have hget : (replyWith f items).get? ⟨plan.expression, l.text⟩ = some (f item) :=
          (get?_replyWith nodup hitems f _ _).mpr
            ⟨item, ⟨plan, hplan, rfl, l, leaf, rfl, hreach, hitem⟩, rfl⟩
        rw [if_pos hleads, hget]
        simp
      · simp [ih hm]
  obtain ⟨answer, hanswer⟩ := Option.isSome_iff_exists.mp (counted plans hplan)
  obtain ⟨other, hother, hleads, hget⟩ := exists_of_lastAnswer hanswer
  obtain ⟨item', ⟨plan', hplan', hexpression, l', leaf', htext, hreach', hitem'⟩, rfl⟩ :=
    (get?_replyWith nodup hitems f _ _).mp hget
  obtain rfl := eq_of_expression nodup hplan' hother hexpression
  obtain ⟨leaf'', hreach''⟩ := (Plan.leadsTo_iff (hread plan' hplan') l).mp hleads
  -- whichever plan it is, it leads to the same leaf
  obtain ⟨-, rfl⟩ := hreach'.eq_of_text hreach'' htext
  obtain rfl := hreach''.unique hreach
  rw [hitem] at hitem'
  obtain rfl : item = item' := by simpa using hitem'
  exact hanswer

/-- Nothing counts for a location that no plan leads to. -/
theorem lastAnswer_eq_none {find : FieldKey → Option Item}
    (hread : ∀ plan ∈ plans, Readable plan.tasks record) {l : Location}
    (hnone : ¬ ∃ plan ∈ plans, ∃ leaf, Reaches plan.tasks record l leaf) :
    lastAnswer find record plans l = none := by
  by_contra hsome
  obtain ⟨answer, hanswer⟩ := Option.ne_none_iff_exists'.mp hsome
  obtain ⟨plan, hplan, hleads, -⟩ := exists_of_lastAnswer hanswer
  obtain ⟨leaf, hreach⟩ := (Plan.leadsTo_iff (hread plan hplan) l).mp hleads
  exact hnone ⟨plan, hplan, leaf, hreach⟩

end Answers

/-! ## A second reply undoes a first one -/

section Inverse

variable {α : Type} [Leaf α] [LawfulLeaf α] {encoding encoding' : Encoding}
  {encrypt decrypt : Item → Item} {plans : List Plan} {record sealed : α}
  {items : List (FieldKey × Item)}

/-- Plans find something under the same keys in alike records, if in any. -/
theorem Harvested.congr {a b : α} {key : FieldKey} {item : Item} (halike : Alike a b)
    (h : Harvested plans a key item) : ∃ item', Harvested plans b key item' := by
  obtain ⟨plan, hplan, hexpression, l, leaf, htext, hreach, hitem⟩ := h
  obtain ⟨leaf', hreach', hlike⟩ := halike.reaches hreach
  have hleaf : isLeaf leaf' = true := by
    rw [← hlike.isLeaf_eq, isLeaf, hitem]
    rfl
  obtain ⟨item', hitem'⟩ := Option.isSome_iff_exists.mp hleaf
  exact ⟨item', plan, hplan, hexpression, l, leaf', htext, hreach', hitem'⟩

/-- Plans that find leaves in a record find some in alike records, too. -/
theorem exists_collect_of_alike {a b : α} (halike : Alike a b) (h : collect a plans = .ok items) :
    ∃ items', collect b plans = .ok items' ∧ (items' = [] → items = []) := by
  have harvest := (collect_ok_iff a plans).mp ⟨items, h⟩
  obtain ⟨items', hitems'⟩ : ∃ items', collect b plans = .ok items' := by
    rw [collect_ok_iff]
    intro plan hplan
    refine ⟨halike.readable (harvest plan hplan).1, ?_⟩
    intro l leaf' hreach'
    obtain ⟨leaf, hreach, hlike⟩ := halike.symm.reaches hreach'
    rw [hlike.isLeaf_eq]
    exact (harvest plan hplan).2 l leaf hreach
  refine ⟨items', hitems', ?_⟩
  -- an item that was found the first time would be found now
  rintro rfl
  rw [List.eq_nil_iff_forall_not_mem]
  rintro ⟨key, item⟩ hm
  obtain ⟨item', hitem'⟩ := ((mem_collect h key item).mp hm).congr halike
  simpa using (mem_collect hitems' key item').mpr hitem'

/-- Wherever plans lead, what is made of the leaf there is the leaf of another record. -/
def Undoes (encoding : Encoding) (decrypt : Item → Item) (plans : List Plan)
    (sealed record : α) : Prop :=
  ∀ plan ∈ plans, ∀ l leaf leaf' cipher, Reaches plan.tasks sealed l leaf' →
    Reaches plan.tasks record l leaf → Leaf.toItem? leaf' = some cipher →
      Leaf.ofItem encoding (decrypt cipher) = leaf

/-- When a reply undoes what distinguishes two alike records, writing it back to the one makes
the other of it. -/
theorem splice_of_undoes (nodup : (plans.map Plan.expression).Nodup) (hs : Sound sealed)
    (ht : Typed sealed) (hroot : RootUniform sealed) (hs' : Sound record)
    (halike : Alike sealed record) (hitems : collect sealed plans = .ok items)
    (undoes : Undoes encoding decrypt plans sealed record)
    (elsewhere : ∀ l, (¬ ∃ plan ∈ plans, ∃ leaf, Reaches plan.tasks sealed l leaf) →
      headAt l sealed = headAt l record) :
    splice encoding (replyWith decrypt items).entries plans sealed = .ok record := by
  have harvest := (collect_ok_iff sealed plans).mp ⟨items, hitems⟩
  have hread : ∀ plan ∈ plans, Readable plan.tasks sealed :=
    fun plan hplan => (harvest plan hplan).1
  have hans : ∀ plan ∈ plans,
      plan.Answered (repliesFor encoding plan.expression (replyWith decrypt items).entries)
        sealed :=
    answered_of_collect nodup hitems (SortedMap.get?_eq_some_iff _)
      fun _ => isSome_of_get?_replyWith
  obtain ⟨out, hout⟩ : ∃ out,
      splice encoding (replyWith decrypt items).entries plans sealed = .ok out := by
    apply exists_splice hs ht hroot hread hans
    intro plan hplan l value leaf' hget hreach'
    rw [get?_repliesFor (SortedMap.get?_eq_some_iff _), Option.map_eq_some_iff] at hget
    obtain ⟨answer, hanswer, rfl⟩ := hget
    obtain ⟨cipher, hcipher, rfl⟩ := (get?_replyWith nodup hitems decrypt _ _).mp hanswer
    obtain ⟨found, hfound⟩ :=
      Option.isSome_iff_exists.mp ((harvest plan hplan).2 l leaf' hreach')
    obtain rfl : cipher = found :=
      hcipher.unique nodup ⟨plan, hplan, rfl, l, leaf', rfl, hreach', hfound⟩
    -- what is written is the leaf of the other record, which is of the same kind
    obtain ⟨leaf, hreach, hlike⟩ := halike.reaches hreach'
    rw [undoes plan hplan l leaf leaf' cipher hreach' hreach hfound, hlike.kind_eq]
  obtain ⟨hsOut, -, heads⟩ :=
    splice_spec (SortedMap.get?_eq_some_iff _) hs ht hroot hread hans hout
  rw [hout]
  refine congrArg Except.ok (LawfulTree.ext hsOut hs' ?_)
  intro l
  rw [heads l]
  by_cases hled : ∃ plan ∈ plans, ∃ leaf, Reaches plan.tasks sealed l leaf
  · -- where a plan leads, the leaf of the other record is written
    obtain ⟨plan, hplan, leaf', hreach'⟩ := hled
    obtain ⟨leaf, hreach, -⟩ := halike.reaches hreach'
    obtain ⟨cipher, hcipher⟩ :=
      Option.isSome_iff_exists.mp ((harvest plan hplan).2 l leaf' hreach')
    rw [lastAnswer_replyWith nodup hitems decrypt hplan hreach' hcipher,
      headAt_of_nodeAt? hreach.nodeAt?,
      ← undoes plan hplan l leaf leaf' cipher hreach' hreach hcipher]
  · -- everywhere else the records have the same
    rw [lastAnswer_eq_none hread hled]
    exact elsewhere l hled

/-- When every leaf that was found is answered, and then every leaf that is found in what comes
of it by what restores the first one, the record comes back. -/
theorem splice_splice (nodup : (plans.map Plan.expression).Nodup) (hs : Sound record)
    (ht : Typed record) (hroot : RootUniform record)
    (hitems : collect record plans = .ok items)
    (restores : ∀ plan ∈ plans, ∀ l leaf, Reaches plan.tasks record l leaf →
      Restores encoding encoding' encrypt decrypt leaf)
    (h : splice encoding (replyWith encrypt items).entries plans record = .ok sealed) :
    ∃ items', collect sealed plans = .ok items' ∧ (items' = [] → items = []) ∧
      splice encoding' (replyWith decrypt items').entries plans sealed = .ok record := by
  have harvest := (collect_ok_iff record plans).mp ⟨items, hitems⟩
  have hread : ∀ plan ∈ plans, Readable plan.tasks record :=
    fun plan hplan => (harvest plan hplan).1
  obtain ⟨hs', halike, heads⟩ := splice_spec (SortedMap.get?_eq_some_iff _) hs ht hroot hread
    (answered_of_collect nodup hitems (SortedMap.get?_eq_some_iff _)
      fun _ => isSome_of_get?_replyWith) h
  obtain ⟨items', hitems', hempty⟩ := exists_collect_of_alike halike.symm hitems
  refine ⟨items', hitems', hempty, ?_⟩
  apply splice_of_undoes nodup hs' (LawfulLeaf.typed_congr halike.symm ht)
    (hroot.congr halike.symm) hs halike hitems'
  · intro plan hplan l leaf leaf' cipher hreach' hreach hcipher
    obtain ⟨item, hitem⟩ :=
      Option.isSome_iff_exists.mp ((harvest plan hplan).2 l leaf hreach)
    -- the leaf that is found now is the one that was written there
    have hwritten := heads l
    rw [lastAnswer_replyWith nodup hitems encrypt hplan hreach hitem,
      headAt_of_nodeAt? hreach'.nodeAt?] at hwritten
    have hhead : head leaf' = head (Leaf.ofItem encoding (encrypt item) : α) := by
      simpa using hwritten
    apply restores plan hplan l leaf hreach item cipher hitem
    rw [← LawfulLeaf.toItem?_congr hhead, hcipher]
  · intro l hled
    have hkept := heads l
    rwa [lastAnswer_eq_none hread] at hkept
    rintro ⟨plan, hplan, leaf, hreach⟩
    obtain ⟨leaf', hreach', -⟩ := halike.symm.reaches hreach
    exact hled ⟨plan, hplan, leaf', hreach'⟩

end Inverse

/-! ## Pipelines -/

/-- A computation comes to a value, whatever else it does. -/
def Yields {m : Type → Type} [Monad m] {β : Type} (x : m β) (b : β) : Prop :=
  ∃ effect : m Unit, x = (fun _ => b) <$> effect

section Yields

variable {m : Type → Type} [Monad m] [LawfulMonad m] {β γ : Type}

theorem Yields.pure (b : β) : Yields (Pure.pure b : m β) b :=
  ⟨Pure.pure (), by simp⟩

theorem Yields.bind {x : m β} {b : β} {f : β → m γ} {c : γ} (hx : Yields x b)
    (hf : Yields (f b) c) : Yields (x >>= f) c := by
  obtain ⟨effect, rfl⟩ := hx
  obtain ⟨effect', heffect'⟩ := hf
  refine ⟨effect >>= fun _ => effect', ?_⟩
  rw [bind_map_left, map_bind, heffect']

end Yields

/-- What a pipeline makes of a record when its service applies a function to every item. -/
def Prepared.outcome {α : Type} [Leaf α] (p : Prepared) (f : Item → Item) (record : α) :
    Except PipelineError α :=
  match p.batch record with
  | .error e => .error e
  | .ok items => if items.isEmpty then .ok record else p.update record (items.mapValues f)

theorem Pipeline.transform_yields {m : Type → Type} [Monad m] [LawfulMonad m] {α : Type}
    [Leaf α] {p : Pipeline m} {f : Item → Item}
    (hservice : ∀ items, Yields (p.service.process items) (.ok (items.mapValues f)))
    (record : α) : Yields (p.transform record) (p.outcome f record) := by
  unfold transform Prepared.outcome
  cases p.batch record with
  | error e => exact Yields.pure _
  | ok items =>
    dsimp only
    split
    · exact Yields.pure _
    · exact Yields.bind (hservice items) (Yields.pure _)

/-- A pipeline passes over a record that is not meant, and writes back what its service makes of
the items of one that is. -/
theorem Prepared.outcome_ok_iff {α : Type} [Leaf α] (p : Prepared) (f : Item → Item)
    (record out : α) :
    p.outcome f record = .ok out ↔ p.concerns record = .ok false ∧ record = out ∨
      p.concerns record = .ok true ∧ ∃ items, collect record p.fields.plans = .ok items ∧
        if items = [] then record = out
        else splice p.settings.encoding (replyWith f items).entries p.fields.plans record =
          .ok out := by
  have houtcome : p.outcome f record = .ok out ↔ ∃ batch, p.batch record = .ok batch ∧
      if batch.isEmpty then record = out
      else splice p.settings.encoding (batch.mapValues f).entries p.fields.plans record =
        .ok out := by
    unfold outcome
    cases p.batch record with
    | error e => simp
    | ok batch => cases hempty : batch.isEmpty <;> simp [hempty, update, mapError_eq_ok_iff]
  have hnone : (SortedMap.empty : ItemMap).isEmpty = true := rfl
  rw [houtcome]
  simp only [batch_eq_ok_iff]
  constructor
  · rintro ⟨batch, ⟨hmeant, rfl⟩ | ⟨hmeant, items, hitems, rfl⟩, hout⟩
    · exact .inl ⟨hmeant, by simpa [hnone] using hout⟩
    · exact .inr ⟨hmeant, items, hitems, by
        simpa [SortedMap.isEmpty_ofList, replyWith] using hout⟩
  · rintro (⟨hmeant, hout⟩ | ⟨hmeant, items, hitems, hout⟩)
    · exact ⟨_, .inl ⟨hmeant, rfl⟩, by simpa [hnone] using hout⟩
    · exact ⟨_, .inr ⟨hmeant, items, hitems, rfl⟩, by
        simpa [SortedMap.isEmpty_ofList, replyWith] using hout⟩

/-- A pipeline that takes every record writes back what its service makes of the items. -/
theorem Prepared.outcome_eq_ok_iff {α : Type} [Leaf α] {settings : Settings} {p : Prepared}
    (hp : ofSettings settings = .ok p) (hfilter : settings.filter = none) (f : Item → Item)
    (record out : α) : p.outcome f record = .ok out ↔
      ∃ items, collect record p.fields.plans = .ok items ∧
        if items = [] then record = out
        else splice settings.encoding (replyWith f items).entries p.fields.plans record =
          .ok out := by
  obtain ⟨hsettings, -, hcondition⟩ := of_ofSettings hp
  have hmeant : p.concerns record = .ok true := by rw [concerns, hcondition hfilter]
  rw [outcome_ok_iff, hmeant, hsettings]
  simp

/-- A pipeline undoes what another one made of a record, when they have the same fields, both
take every record, and the one service restores what the other one makes of the leaves. -/
theorem Prepared.outcome_outcome {α : Type} [Leaf α] [LawfulLeaf α] {s s' : Settings}
    {p p' : Prepared} (hp : ofSettings s = .ok p) (hp' : ofSettings s' = .ok p')
    (hfields : s.fields = s'.fields) (hfilter : s.filter = none) (hfilter' : s'.filter = none)
    {encrypt decrypt : Item → Item} {record sealed : α} (hs : Sound record)
    (ht : Typed record) (hroot : RootUniform record)
    (restores : ∀ plan ∈ p.fields.plans, ∀ values path leaf, plan.read record = .ok values →
      values.get? path = some leaf → Restores s.encoding s'.encoding encrypt decrypt leaf)
    (h : p.outcome encrypt record = .ok sealed) : p'.outcome decrypt sealed = .ok record := by
  obtain ⟨-, hcompile, -⟩ := of_ofSettings hp
  obtain ⟨-, hcompile', -⟩ := of_ofSettings hp'
  -- the limits may differ, the plans do not
  have hplans : p'.fields = p.fields := by
    rw [← hfields] at hcompile'
    exact FieldPlans.compile_unique hcompile' hcompile
  rw [outcome_eq_ok_iff hp hfilter] at h
  rw [outcome_eq_ok_iff hp' hfilter', hplans]
  obtain ⟨items, hitems, h⟩ := h
  -- without items neither of the two asks its service
  by_cases hempty : items = []
  · rw [if_pos hempty] at h
    subst h
    exact ⟨items, hitems, by rw [if_pos hempty]⟩
  · rw [if_neg hempty] at h
    have restored : ∀ plan ∈ p.fields.plans, ∀ l leaf, Reaches plan.tasks record l leaf →
        Restores s.encoding s'.encoding encrypt decrypt leaf := by
      intro plan hplan l leaf hreach
      have harvest := (collect_ok_iff record p.fields.plans).mp ⟨items, hitems⟩ plan hplan
      obtain ⟨values, hvalues⟩ := (Plan.read_ok_iff plan record).mpr harvest.1
      apply restores plan hplan values l.text leaf hvalues
      exact (Plan.get?_of_read hvalues l.text leaf).mpr ⟨l, rfl, hreach⟩
    obtain ⟨items', hitems', hnonempty, hback⟩ :=
      splice_splice (FieldPlans.nodup_of_compile hcompile) hs ht hroot hitems restored h
    refine ⟨items', hitems', ?_⟩
    rwa [if_neg fun hnil => hempty (hnonempty hnil)]

namespace Pipeline

theorem asRecord_eq_ok_iff (value : Datum) (record : Record) :
    asRecord value = .ok record ↔ value = record.toDatum := by
  obtain ⟨schema, slots⟩ := record
  cases value <;> simp [asRecord, Record.ofDatum?, Record.toDatum]

variable {m : Type → Type} [Monad m] [LawfulMonad m]

theorem transformRecord_yields {p : Pipeline m} {f : Item → Item}
    (hservice : ∀ items, Yields (p.service.process items) (.ok (items.mapValues f)))
    (record : Record) :
    Yields (p.transformRecord record) ((p.outcome f record.toDatum).bind asRecord) :=
  Yields.bind (transform_yields hservice record.toDatum) (Yields.pure _)

/-- Every document, and every record made by creating it and putting values into it, comes back
as it was from a pipeline and another one with the same fields, when both take every record and
the services answer every key, the one with what restores the leaves from what the other one
makes of them. -/
theorem round_trip {s s' : Settings} {p p' : Pipeline m}
    (hp : Prepared.ofSettings s = .ok p.toPrepared)
    (hp' : Prepared.ofSettings s' = .ok p'.toPrepared) (hfields : s.fields = s'.fields)
    (hfilter : s.filter = none) (hfilter' : s'.filter = none) {encrypt decrypt : Item → Item}
    (hencrypt : ∀ items, Yields (p.service.process items) (.ok (items.mapValues encrypt)))
    (hdecrypt : ∀ items, Yields (p'.service.process items) (.ok (items.mapValues decrypt))) :
    (∀ record : Json, Sound record →
      (∀ plan ∈ p.fields.plans, ∀ values path leaf, plan.read record = .ok values →
        values.get? path = some leaf →
          Restores s.encoding s'.encoding encrypt decrypt leaf) →
      Yields (p.transform record) (p.outcome encrypt record) ∧
        ∀ sealed, p.outcome encrypt record = .ok sealed →
          Yields (p'.transform sealed) (.ok record)) ∧
    ∀ record : Record, Datum.Built record.toDatum →
      (∀ plan ∈ p.fields.plans, ∀ values path leaf, plan.read record.toDatum = .ok values →
        values.get? path = some leaf →
          Restores s.encoding s'.encoding encrypt decrypt leaf) →
      Yields (p.transformRecord record) ((p.outcome encrypt record.toDatum).bind asRecord) ∧
        ∀ sealed, (p.outcome encrypt record.toDatum).bind asRecord = .ok sealed →
          Yields (p'.transformRecord sealed) (.ok record) := by
  constructor
  · intro record hs restores
    refine ⟨transform_yields hencrypt record, ?_⟩
    intro sealed hsealed
    have hback := Prepared.outcome_outcome hp hp' hfields hfilter hfilter' hs trivial
      record.rootUniform restores hsealed
    rw [← hback]
    exact transform_yields hdecrypt sealed
  · intro record built restores
    refine ⟨transformRecord_yields hencrypt record, ?_⟩
    intro sealed hsealed
    obtain ⟨value, hvalue, hrecord⟩ := bind_eq_ok_iff.mp hsealed
    rw [asRecord_eq_ok_iff] at hrecord
    subst hrecord
    obtain ⟨hs, ht⟩ := built.sound_and_typed
    -- the root of a record is no leaf
    have hroot : RootUniform record.toDatum := by
      rintro leaf ⟨⟩
    have hback := Prepared.outcome_outcome hp hp' hfields hfilter hfilter' hs ht hroot
      restores hvalue
    have hyields := transformRecord_yields hdecrypt sealed
    rw [hback] at hyields
    exact hyields

/-- Texts and bytes read backwards. -/
def Item.backwards : Item → Item
  | .text s => .text (String.ofList s.toList.reverse)
  | .bytes raw => .bytes raw.reverse

/-- The pipeline that reads the field `a` of each record backwards. -/
def backwards (mode : Mode) : Pipeline Id where
  settings := { fields := ["$.a"], mode := mode }
  fields := ⟨[⟨"$.a", [.field "a"]⟩]⟩
  condition := none
  service := Service.plain fun items => pure (.ok (items.mapValues Item.backwards))

/-- A record with a text, and a field for bytes which is not set. -/
def textRecord (text : String) : Record where
  schema := .struct {} [⟨"a", 0, .scalar .string {}⟩, ⟨"b", 1, .scalar .bytes {}⟩]
  slots := [some (.scalar (.string text)), none]

theorem built_textRecord (text : String) : Datum.Built (textRecord text).toDatum := by
  have declared : Schema.build .struct {}
      [("a", .scalar .string {}), ("b", .scalar .bytes {})] none =
        .ok (textRecord text).schema := rfl
  have created : Record.create (textRecord text).schema =
      .ok ⟨(textRecord text).schema, [none, none]⟩ := rfl
  have stored : Record.put "a" (.scalar (.string text))
      ⟨(textRecord text).schema, [none, none]⟩ = .ok () (textRecord text) := rfl
  exact .put (.create declared created) (.scalar (.string text)) stored

/-- The texts of a document and of a structured record, read backwards twice. -/
theorem round_trip_backwards :
    Yields ((backwards .decrypt).transform
      (Json.object [("a", .string "yx"), ("b", .string "xy")]))
      (.ok (.object [("a", .string "xy"), ("b", .string "xy")])) ∧
    Yields ((backwards .decrypt).transformRecord (textRecord "yx")) (.ok (textRecord "xy")) := by
  obtain ⟨documents, records⟩ := @round_trip Id _ _ (backwards .encrypt).settings
    (backwards .decrypt).settings (backwards .encrypt) (backwards .decrypt) rfl rfl rfl rfl rfl
    Item.backwards Item.backwards (fun items => Yields.pure _) (fun items => Yields.pure _)
  constructor
  · refine (documents (.object [("a", .string "xy"), ("b", .string "xy")]) ?_ ?_).2 _ rfl
    · show Json.Sound _
      simp [InKeyOrder, show compare "a" "b" = .lt by decide]
    · intro plan hplan values path leaf hread hget
      obtain rfl : plan = ⟨"$.a", [.field "a"]⟩ := by simpa [backwards] using hplan
      cases hread
      have hm : (path, leaf) ∈ [("$.a", Json.string "xy")] :=
        SortedMap.mem_of_get?_ofList hget
      obtain ⟨-, rfl⟩ : path = "$.a" ∧ leaf = .string "xy" := by simpa using hm
      rintro item cipher ⟨⟩ ⟨⟩
      rfl
  · refine (records (textRecord "xy") (built_textRecord "xy") ?_).2 _ rfl
    intro plan hplan values path leaf hread hget
    obtain rfl : plan = ⟨"$.a", [.field "a"]⟩ := by simpa [backwards] using hplan
    cases hread
    have hm : (path, leaf) ∈ [("$.a", Datum.scalar (.string "xy"))] :=
      SortedMap.mem_of_get?_ofList hget
    obtain ⟨-, rfl⟩ : path = "$.a" ∧ leaf = .scalar (.string "xy") := by simpa using hm
    rintro item cipher ⟨⟩ ⟨⟩
    rfl

end Pipeline

end RecordCipher
