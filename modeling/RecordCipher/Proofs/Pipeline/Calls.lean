import RecordCipher.Proofs.Pipeline.Harvest

/-!
# What a service is asked

For each record the service of a pipeline is asked once, or not at all, and this is settled
before it is asked. Whatever it replies, it is not asked again. A service that is observed, so
that the batches it is given are listed, shows which: it is asked when the record is meant, all
configured expressions can be read, and what they select are leaves, at least one. It is then
given the items of these leaves and nothing else. A record for which it is not asked is refused,
or comes back as it is.

## Main definitions

* `Service.observed`, `Pipeline.observed`: a service that lists the batches it is given
* `Asks`: what a computation has its service asked, whatever the service replies
* `Settings.Engages`: when a record is due to be handed to the service
* `Settings.Accounts`: the batches that are due for a record

## Main results

* `Pipeline.transform_asks`: the batches that a pipeline hands to its service
* `Prepared.accounts_calls`: these are the ones that are due
* `Pipeline.apply_calls`: the same for all records of a host, and what comes of those that the
  service never sees
-/

namespace RecordCipher

/-! ## Observed services -/

section Observed

variable {m : Type → Type} [Monad m]

/-- The service that lists the batches it is given, behind those that were listed before. -/
def Service.observed (service : Service m) : Service (StateT (List ItemMap) m) where
  name := service.name
  process items := do
    modify (· ++ [items])
    service.process items
  start := service.start
  stop := service.stop

/-- The same pipeline, with its service observed. -/
def Pipeline.observed (p : Pipeline m) : Pipeline (StateT (List ItemMap) m) :=
  { p.toPrepared with service := p.service.observed }

/-- An observed computation has the service asked for the listed batches, and otherwise does what
the computation does that is not observed. -/
def Asks {β : Type} (observed : StateT (List ItemMap) m β) (plain : m β)
    (calls : List ItemMap) : Prop :=
  ∀ earlier, observed.run earlier = (fun b => (b, earlier ++ calls)) <$> plain

variable [LawfulMonad m] {β γ : Type}

theorem Asks.pure (b : β) : Asks (Pure.pure b : StateT (List ItemMap) m β) (Pure.pure b) [] := by
  intro earlier
  simp

/-- A computation that only begins by asking the service asks for no more. -/
theorem Asks.bind {x : StateT (List ItemMap) m β} {x' : m β} {calls : List ItemMap}
    {f : β → StateT (List ItemMap) m γ} {f' : β → m γ} (hx : Asks x x' calls)
    (hf : ∀ b, Asks (f b) (f' b) []) : Asks (x >>= f) (x' >>= f') calls := by
  intro earlier
  have hf' : ∀ b, (f b).run (earlier ++ calls) =
      (fun c => (c, earlier ++ calls)) <$> f' b := by
    intro b
    simpa using hf b (earlier ++ calls)
  rw [StateT.run_bind, hx earlier, bind_map_left, map_bind]
  exact congrArg _ (funext hf')

theorem Service.process_asks (service : Service m) (items : ItemMap) :
    Asks (service.observed.process items) (service.process items) [items] := by
  intro earlier
  simp [observed]

end Observed

/-! ## The batches of a record -/

section Batches

variable {α : Type} [Leaf α]

/-- The batches that the service is asked for: that of the record, unless there is nothing in
it. -/
def Prepared.calls (p : Prepared) (record : α) : List ItemMap :=
  match p.batch record with
  | .ok items => if items.isEmpty then [] else [items]
  | .error _ => []

theorem Prepared.calls_length (p : Prepared) (record : α) : (p.calls record).length ≤ 1 := by
  unfold calls
  split
  · split <;> simp
  · simp

/-- The service is asked for the items of a record that is meant, if there are any. -/
theorem Prepared.mem_calls_iff {p : Prepared} {record : α} {batch : ItemMap} :
    batch ∈ p.calls record ↔ p.concerns record = .ok true ∧ ∃ items,
      collect record p.fields.plans = .ok items ∧ items ≠ [] ∧
        batch = SortedMap.ofList items := by
  have hcalls : batch ∈ p.calls record ↔
      p.batch record = .ok batch ∧ batch.isEmpty = false := by
    unfold calls
    cases p.batch record with
    | error e => simp
    | ok items => cases hempty : items.isEmpty <;> grind
  rw [hcalls, batch_eq_ok_iff]
  constructor
  · rintro ⟨⟨-, rfl⟩ | ⟨hmeant, items, hitems, rfl⟩, hne⟩
    · cases hne
    · exact ⟨hmeant, items, hitems, by simpa [SortedMap.isEmpty_ofList] using hne, rfl⟩
  · rintro ⟨hmeant, items, hitems, hne, rfl⟩
    exact ⟨.inr ⟨hmeant, items, hitems, rfl⟩, by simpa [SortedMap.isEmpty_ofList] using hne⟩

variable {m : Type → Type} [Monad m]

/-- A pipeline has its service asked for the batches of the record, whatever it replies. -/
theorem Pipeline.transform_asks [LawfulMonad m] (p : Pipeline m) (record : α) :
    Asks (p.observed.transform record) (p.transform record) (p.calls record) := by
  unfold transform Prepared.calls
  have hbatch : p.observed.batch record = p.batch record := rfl
  rw [hbatch]
  cases p.batch record with
  | error e => exact .pure _
  | ok items =>
    dsimp only
    split
    · exact .pure _
    · refine .bind (p.service.process_asks items) ?_
      rintro (e | reply)
      · exact .pure _
      · exact .pure _

/-- Without a batch the record is refused, or comes back as it is. -/
theorem Pipeline.transform_of_calls {p : Pipeline m} {record : α} (h : p.calls record = []) :
    (∃ e, p.transform record = pure (.error e)) ∨ p.transform record = pure (.ok record) := by
  unfold Prepared.calls at h
  unfold transform
  cases hbatch : p.batch record with
  | error e => exact .inl ⟨e, rfl⟩
  | ok items =>
    simp only [hbatch] at h
    split at h
    · next hempty => exact .inr (by simp [hempty])
    · cases h

end Batches

/-! ## The batches that are due -/

namespace Settings

variable {α : Type} [Leaf α]

/-- A record is meant: the filter accepts it, if there is one. -/
def Concerns (s : Settings) (record : α) : Prop :=
  ∀ filter, s.filter = some filter → ∃ condition,
    Condition.ofFilter s.effectiveLimits filter = .ok condition ∧
      condition.accepts record = .ok true

/-- A configured expression selects a value of a record, at the location of some text. -/
def Selects (s : Settings) (record : α) (text path : String) (node : α) : Prop :=
  text ∈ s.fields ∧ ∃ plan values, Plan.compileWithin s.effectiveLimits text = .ok plan ∧
    plan.read record = .ok values ∧ values.get? path = some node

/-- A record is due to be handed to the service: it is meant, all configured expressions can be
read in it, and what they select are leaves, at least one. -/
structure Engages (s : Settings) (record : α) : Prop where
  meant : s.Concerns record
  readable : ∀ text ∈ s.fields, ∃ plan values,
    Plan.compileWithin s.effectiveLimits text = .ok plan ∧ plan.read record = .ok values
  leaves : ∀ text path node, s.Selects record text path node → isLeaf node = true
  some_leaf : ∃ text path node, s.Selects record text path node

/-- The batches that are due for a record: one, if it is due to be handed to the service at all,
with one item for each configured expression and each location where it selects a leaf. -/
structure Accounts (s : Settings) (record : α) (calls : List ItemMap) : Prop where
  at_most_once : calls.length ≤ 1
  asked_iff : calls ≠ [] ↔ s.Engages record
  distinct : ∀ batch ∈ calls, batch.keys.Nodup
  exact_items : ∀ batch ∈ calls, ∀ key item, (key, item) ∈ batch.entries ↔
    ∃ node, s.Selects record key.expression key.path node ∧ Leaf.toItem? node = some item

end Settings

section Due

variable {α : Type} [Leaf α] {settings : Settings} {p : Prepared} {record : α}

theorem Prepared.concerns_iff (hp : ofSettings settings = .ok p) :
    p.concerns record = .ok true ↔ settings.Concerns record := by
  have hcondition := condition_of_ofSettings hp
  unfold concerns Settings.Concerns
  cases hfilter : settings.filter with
  | none =>
    obtain hnone : p.condition = none := by simpa [hfilter] using hcondition.symm
    simp [hnone]
  | some filter =>
    rw [hfilter, Option.map_some, eq_comm, Option.map_eq_some_iff] at hcondition
    obtain ⟨condition, hsome, hcompiled⟩ := hcondition
    simp [hsome, ← hcompiled, mapError_eq_ok_iff]

/-- What a configured expression selects in a record is what its plan leads to there. -/
theorem Settings.selects_iff (hp : Prepared.ofSettings settings = .ok p)
    (hread : ∀ plan ∈ p.fields.plans, Readable plan.tasks record) {text path : String}
    {node : α} : settings.Selects record text path node ↔ ∃ plan ∈ p.fields.plans,
      plan.expression = text ∧ ∃ l, l.text = path ∧ Reaches plan.tasks record l node := by
  obtain ⟨-, hfields, -⟩ := Prepared.of_ofSettings hp
  constructor
  · rintro ⟨htext, plan, values, hplan, hvalues, hget⟩
    exact ⟨plan, (FieldPlans.mem_compile hfields plan).mpr ⟨text, htext, hplan⟩,
      Plan.expression_of_compileWithin hplan, (Plan.get?_of_read hvalues path node).mp hget⟩
  · rintro ⟨plan, hm, rfl, hreach⟩
    obtain ⟨text, htext, hplan⟩ := (FieldPlans.mem_compile hfields plan).mp hm
    obtain rfl := Plan.expression_of_compileWithin hplan
    obtain ⟨values, hvalues⟩ := (Plan.read_ok_iff plan record).mpr (hread plan hm)
    exact ⟨htext, plan, values, hplan, hvalues, (Plan.get?_of_read hvalues path node).mpr hreach⟩

theorem Settings.readable_iff (hp : Prepared.ofSettings settings = .ok p) :
    (∀ text ∈ settings.fields, ∃ plan values,
      Plan.compileWithin settings.effectiveLimits text = .ok plan ∧
        plan.read record = .ok values) ↔
      ∀ plan ∈ p.fields.plans, Readable plan.tasks record := by
  obtain ⟨-, hfields, -⟩ := Prepared.of_ofSettings hp
  simp only [← Plan.read_ok_iff, FieldPlans.mem_compile hfields]
  constructor
  · rintro h plan ⟨text, htext, hplan⟩
    obtain ⟨plan', values, hplan', hvalues⟩ := h text htext
    obtain rfl := Plan.compileWithin_unique hplan hplan'
    exact ⟨values, hvalues⟩
  · intro h text htext
    obtain ⟨plan, hplan⟩ := FieldPlans.exists_plan_of_compile hfields htext
    obtain ⟨values, hvalues⟩ := h plan ⟨text, htext, hplan⟩
    exact ⟨plan, values, hplan, hvalues⟩

/-- The record has items to be collected when it is due but for being meant. -/
theorem Settings.collect_iff (hp : Prepared.ofSettings settings = .ok p) :
    (∃ items, collect record p.fields.plans = .ok items ∧ items ≠ []) ↔
      (∀ plan ∈ p.fields.plans, Readable plan.tasks record) ∧
        (∀ text path node, settings.Selects record text path node → isLeaf node = true) ∧
          ∃ text path node, settings.Selects record text path node := by
  constructor
  · rintro ⟨items, hitems, hne⟩
    have harvest := (collect_ok_iff record p.fields.plans).mp ⟨items, hitems⟩
    have hread := fun plan hm => (harvest plan hm).1
    refine ⟨hread, ?_, ?_⟩
    · intro text path node hselects
      obtain ⟨plan, hm, -, l, -, hreach⟩ := (selects_iff hp hread).mp hselects
      exact (harvest plan hm).2 l node hreach
    · obtain ⟨⟨key, item⟩, hm⟩ := List.exists_mem_of_ne_nil items hne
      obtain ⟨plan, hplan, hexpression, l, leaf, htext, hreach, -⟩ :=
        (mem_collect hitems key item).mp hm
      exact ⟨_, _, leaf, (selects_iff hp hread).mpr ⟨plan, hplan, hexpression, l, htext, hreach⟩⟩
  · rintro ⟨hread, hleaf, text, path, node, hselects⟩
    obtain ⟨items, hitems⟩ := (collect_ok_iff record p.fields.plans).mpr fun plan hm =>
      ⟨hread plan hm, fun l node hreach => hleaf plan.expression l.text node
        ((selects_iff hp hread).mpr ⟨plan, hm, rfl, l, rfl, hreach⟩)⟩
    refine ⟨items, hitems, ?_⟩
    -- what is selected has been collected
    obtain ⟨item, hitem⟩ := Option.isSome_iff_exists.mp (hleaf text path node hselects)
    obtain ⟨plan, hm, hexpression, l, htext, hreach⟩ := (selects_iff hp hread).mp hselects
    exact List.ne_nil_of_mem ((mem_collect hitems ⟨text, path⟩ item).mpr
      ⟨plan, hm, hexpression, l, node, htext, hreach, hitem⟩)

/-- The batches that a pipeline makes of a record are the ones that are due. -/
theorem Prepared.accounts_calls (hp : ofSettings settings = .ok p) (record : α) :
    settings.Accounts record (p.calls record) where
  at_most_once := p.calls_length record
  asked_iff := by
    have hasked : p.calls record ≠ [] ↔ p.concerns record = .ok true ∧ ∃ items,
        collect record p.fields.plans = .ok items ∧ items ≠ [] := by
      constructor
      · intro hne
        obtain ⟨batch, hm⟩ := List.exists_mem_of_ne_nil _ hne
        obtain ⟨hmeant, items, hitems, hnonempty, -⟩ := mem_calls_iff.mp hm
        exact ⟨hmeant, items, hitems, hnonempty⟩
      · rintro ⟨hmeant, items, hitems, hnonempty⟩
        exact List.ne_nil_of_mem (mem_calls_iff.mpr ⟨hmeant, items, hitems, hnonempty, rfl⟩)
    rw [hasked, concerns_iff hp, Settings.collect_iff hp]
    constructor
    · rintro ⟨hmeant, hread, hleaf, hsome⟩
      exact ⟨hmeant, (Settings.readable_iff hp).mpr hread, hleaf, hsome⟩
    · rintro ⟨hmeant, hread, hleaf, hsome⟩
      exact ⟨hmeant, (Settings.readable_iff hp).mp hread, hleaf, hsome⟩
  distinct batch _ := by
    unfold SortedMap.keys List.Nodup
    rw [List.pairwise_map]
    refine batch.inOrder.imp ?_
    rintro a b hlt heq
    simp [heq] at hlt
  exact_items := by
    intro batch hbatch key item
    obtain ⟨-, items, hitems, -, rfl⟩ := mem_calls_iff.mp hbatch
    obtain ⟨-, hfields, -⟩ := of_ofSettings hp
    have hread := fun plan hm => ((collect_ok_iff record p.fields.plans).mp ⟨items, hitems⟩
      plan hm).1
    rw [← SortedMap.get?_eq_some_iff, get?_collect (FieldPlans.nodup_of_compile hfields) hitems]
    simp only [Settings.selects_iff hp hread]
    constructor
    · rintro ⟨plan, hm, hexpression, l, leaf, htext, hreach, hitem⟩
      exact ⟨leaf, ⟨plan, hm, hexpression, l, htext, hreach⟩, hitem⟩
    · rintro ⟨leaf, ⟨plan, hm, hexpression, l, htext, hreach⟩, hitem⟩
      exact ⟨plan, hm, hexpression, l, leaf, htext, hreach, hitem⟩

end Due

/-! ## Records of a host -/

namespace Pipeline

variable {m : Type → Type} [Monad m]

/-- A pipeline has its service asked for some batches, whatever it replies, for a record of a
host. Without any, the record is refused or comes back as it is. -/
structure Handles (p : Pipeline m) (record : AnyRecord) (calls : List ItemMap) : Prop where
  asks : Asks (p.observed.apply record) (p.apply record) calls
  of_none : calls = [] →
    (∃ e, p.apply record = pure (.error e)) ∨ p.apply record = pure (.ok record)

variable [LawfulMonad m]

theorem handles_generic (p : Pipeline m) (record : Json) :
    p.Handles (.generic record) (p.calls record) where
  asks := .bind (p.transform_asks record) fun result => .pure _
  of_none hnone := by
    rcases transform_of_calls hnone with ⟨e, herror⟩ | hsame
    · exact .inl ⟨e, by simp [apply, herror, Except.map]⟩
    · exact .inr (by simp [apply, hsame, Except.map])

theorem handles_structured (p : Pipeline m) (record : Record) :
    p.Handles (.structured record) (p.calls record.toDatum) where
  asks := by
    have htransform : Asks (p.observed.transformRecord record) (p.transformRecord record)
        (p.calls record.toDatum) :=
      .bind (p.transform_asks record.toDatum) fun result => .pure _
    exact .bind htransform fun result => .pure _
  of_none hnone := by
    rcases transform_of_calls hnone with ⟨e, herror⟩ | hsame
    · exact .inl ⟨e, by simp [apply, transformRecord, herror, Except.bind, Except.map]⟩
    · have hback : asRecord record.toDatum = .ok record := rfl
      exact .inr (by simp [apply, transformRecord, hsame, hback, Except.bind, Except.map])

/-- The service of a pipeline is asked at most once for a record of a host, whatever it replies:
when the record is due, and then for the items of what the configured expressions select in it.
It is never asked for a record without a value. A record for which it is not asked is refused, or
comes back as it is. -/
theorem apply_calls {settings : Settings} {p : Pipeline m}
    (hp : Prepared.ofSettings settings = .ok p.toPrepared) :
    (∀ record : Json, ∃ calls, settings.Accounts record calls ∧
      p.Handles (.generic record) calls) ∧
    (∀ record : Record, ∃ calls, settings.Accounts record.toDatum calls ∧
      p.Handles (.structured record) calls) ∧
    p.Handles .empty [] := by
  refine ⟨fun record => ?_, fun record => ?_, ?_⟩
  · exact ⟨_, Prepared.accounts_calls hp record, p.handles_generic record⟩
  · exact ⟨_, Prepared.accounts_calls hp record.toDatum, p.handles_structured record⟩
  · exact ⟨.pure _, fun _ => .inr rfl⟩

/-- A pipeline for documents with a certain text in their field `k`. One field is configured
twice, and once more in another notation. -/
def guarded : Pipeline Id where
  settings :=
    { fields := ["$.a", "$['a']", "$.a", "$.l[*]"], mode := .encrypt,
      filter := some ⟨"$.k", "s"⟩ }
  fields := ⟨[⟨"$.a", [.field "a"]⟩, ⟨"$['a']", [.field "a"]⟩,
    ⟨"$.l[*]", [.field "l", .elements .every]⟩]⟩
  condition := some ⟨"$.k", "s", ⟨"$.k", [.field "k"]⟩⟩
  service := Service.plain fun items => pure (.ok items)

/-- A document with a text, a mark, and an array of a text and a null. -/
def markedDocument (mark : String) : Json :=
  .object [("a", .string "x"), ("k", .string mark), ("l", .array [.string "y", .null])]

/-- The field that is configured in two notations is handed over under both, and once under each.
Nothing is handed over of a document with another mark. -/
theorem apply_calls_two_notations :
    guarded.settings.Accounts (markedDocument "s") [SortedMap.ofList
      [(⟨"$.a", "$.a"⟩, .text "x"), (⟨"$['a']", "$.a"⟩, .text "x"),
        (⟨"$.l[*]", "$.l[0]"⟩, .text "y")]] ∧
    guarded.settings.Accounts (markedDocument "t") [] := by
  have prepared : Prepared.ofSettings guarded.settings = .ok guarded.toPrepared := rfl
  constructor
  · obtain ⟨calls, accounts, handles⟩ := (apply_calls prepared).1 (markedDocument "s")
    have hcalls : _ = calls := congrArg Prod.snd (handles.asks [])
    rwa [← hcalls] at accounts
  · obtain ⟨calls, accounts, handles⟩ := (apply_calls prepared).1 (markedDocument "t")
    have hcalls : _ = calls := congrArg Prod.snd (handles.asks [])
    rwa [← hcalls] at accounts

end Pipeline

end RecordCipher
