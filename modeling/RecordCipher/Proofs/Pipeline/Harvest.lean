import RecordCipher.Pipeline.Basic
import RecordCipher.Proofs.Exchange.LeafWriting
import RecordCipher.Proofs.Pipeline.Preparation

/-!
# What a pipeline collects, and what a reply answers

The items of a record are collected under keys of which each says by which expression and where
its leaf was found. Among the distinct expressions of a pipeline, and along the plan of each of
them, a key belongs to one leaf. The replacements that are made of a reply for one expression
are therefore those of the keys of this expression, in whatever order the reply lists them.

## Main definitions

* `Harvested`: the items that plans find in a record, with their keys

## Main results

* `collect_ok_iff`, `mem_collect`: when the items can be collected, and what they are
* `Prepared.batch_eq_ok_iff`: the batch of a record
* `get?_repliesFor`: the replacements made of a reply for one expression
-/

namespace RecordCipher

instance : Std.LawfulEqOrd FieldKey where
  eq_of_compare {key key'} h := by
    obtain ⟨hexpression, hpath⟩ := compareLex_eq_eq.mp h
    obtain ⟨expression, path⟩ := key
    obtain ⟨expression', path'⟩ := key'
    obtain rfl : expression = expression' := Std.LawfulEqOrd.eq_of_compare hexpression
    obtain rfl : path = path' := Std.LawfulEqOrd.eq_of_compare hpath
    rfl

/-! ## Collecting items -/

section Collect

variable {α : Type} [Leaf α]

/-- The items that plans find in a record, with their keys. -/
def Harvested (plans : List Plan) (record : α) (key : FieldKey) (item : Item) : Prop :=
  ∃ plan ∈ plans, plan.expression = key.expression ∧ ∃ l leaf, l.text = key.path ∧
    Reaches plan.tasks record l leaf ∧ Leaf.toItem? leaf = some item

theorem itemsOf_ok_iff (expression : String) (values : List (String × α)) :
    (∃ items, itemsOf expression values = .ok items) ↔
      ∀ value ∈ values, isLeaf value.2 = true := by
  induction values with
  | nil => simp [itemsOf]
  | cons value rest ih =>
    obtain ⟨path, node⟩ := value
    rw [List.forall_mem_cons, ← ih, itemsOf, isLeaf]
    cases Leaf.toItem? node with
    | none => simp
    | some item => simp [bind_eq_ok_iff, pure, Except.pure]

theorem mem_itemsOf {expression : String} {values : List (String × α)}
    {items : List (FieldKey × Item)} (h : itemsOf expression values = .ok items)
    (key : FieldKey) (item : Item) :
    (key, item) ∈ items ↔ key.expression = expression ∧
      ∃ node, (key.path, node) ∈ values ∧ Leaf.toItem? node = some item := by
  induction values generalizing items with
  | nil =>
    obtain rfl : [] = items := by simpa [itemsOf] using h
    simp
  | cons value rest ih =>
    obtain ⟨path, node⟩ := value
    rw [itemsOf] at h
    cases hitem : Leaf.toItem? node with
    | none => simp [hitem] at h
    | some found =>
      simp only [hitem] at h
      obtain ⟨others, hothers, h⟩ := bind_eq_ok_iff.mp h
      obtain rfl : _ = items := by simpa [pure, Except.pure] using h
      rw [List.mem_cons, ih hothers]
      constructor
      · rintro (heq | ⟨hexpression, node', hm, hitem'⟩)
        · obtain ⟨rfl, rfl⟩ : key = ⟨expression, path⟩ ∧ item = found := by simpa using heq
          exact ⟨rfl, node, by simp, hitem⟩
        · exact ⟨hexpression, node', List.mem_cons_of_mem _ hm, hitem'⟩
      · rintro ⟨hexpression, node', hm, hitem'⟩
        rcases List.mem_cons.mp hm with heq | hm
        · obtain ⟨hpath, rfl⟩ : key.path = path ∧ node' = node := by simpa using heq
          rw [hitem] at hitem'
          obtain rfl : found = item := by simpa using hitem'
          left
          rw [← hexpression, ← hpath]
        · exact .inr ⟨hexpression, node', hm, hitem'⟩

/-- The values that are read along a plan are what the plan leads to. -/
theorem Plan.mem_entries_of_read {plan : Plan} {record : α} {values : PathMap α}
    (h : plan.read record = .ok values) (path : String) (node : α) :
    (path, node) ∈ values.entries ↔ ∃ l, l.text = path ∧ Reaches plan.tasks record l node := by
  rw [← SortedMap.get?_eq_some_iff, Plan.get?_of_read h]

/-- The items of a record can be collected when all plans can be followed in it and lead to
leaves only. -/
theorem collect_ok_iff (record : α) (plans : List Plan) :
    (∃ items, collect record plans = .ok items) ↔ ∀ plan ∈ plans,
      Readable plan.tasks record ∧
        ∀ l node, Reaches plan.tasks record l node → isLeaf node = true := by
  induction plans with
  | nil => simp [collect]
  | cons plan rest ih =>
    rw [List.forall_mem_cons, ← ih]
    simp only [collect, bind_eq_ok_iff, mapError_eq_ok_iff, pure, Except.pure]
    constructor
    · rintro ⟨_, values, hvalues, items, hitems, others, hothers, -⟩
      refine ⟨⟨(Plan.read_ok_iff plan record).mp ⟨values, hvalues⟩, ?_⟩, others, hothers⟩
      intro l node hreach
      have leaves := (itemsOf_ok_iff plan.expression values.entries).mp ⟨items, hitems⟩
      exact leaves (l.text, node) ((Plan.mem_entries_of_read hvalues _ _).mpr ⟨l, rfl, hreach⟩)
    · -- what is read are the nodes that the plan leads to, which are all leaves
      rintro ⟨⟨hread, leaves⟩, others, hothers⟩
      obtain ⟨values, hvalues⟩ := (Plan.read_ok_iff plan record).mpr hread
      obtain ⟨items, hitems⟩ := (itemsOf_ok_iff plan.expression values.entries).mpr (by
        rintro ⟨path, node⟩ hm
        obtain ⟨l, -, hreach⟩ := (Plan.mem_entries_of_read hvalues path node).mp hm
        exact leaves l node hreach)
      exact ⟨_, values, hvalues, items, hitems, others, hothers, rfl⟩

theorem mem_collect {record : α} {plans : List Plan} {items : List (FieldKey × Item)}
    (h : collect record plans = .ok items) (key : FieldKey) (item : Item) :
    (key, item) ∈ items ↔ Harvested plans record key item := by
  induction plans generalizing items with
  | nil =>
    obtain rfl : [] = items := by simpa [collect] using h
    simp [Harvested]
  | cons plan rest ih =>
    simp only [collect, bind_eq_ok_iff, mapError_eq_ok_iff, pure, Except.pure] at h
    obtain ⟨values, hvalues, found, hfound, others, hothers, h⟩ := h
    obtain rfl : found ++ others = items := by simpa using h
    rw [List.mem_append, mem_itemsOf hfound, ih hothers, Harvested, Harvested,
      List.exists_mem_cons_iff]
    simp only [Plan.mem_entries_of_read hvalues]
    constructor
    · rintro (⟨hexpression, node, ⟨l, htext, hreach⟩, hitem⟩ | hrest)
      · exact .inl ⟨hexpression.symm, l, node, htext, hreach, hitem⟩
      · exact .inr hrest
    · rintro (⟨hexpression, l, leaf, htext, hreach, hitem⟩ | hrest)
      · exact .inl ⟨hexpression.symm, leaf, ⟨l, htext, hreach⟩, hitem⟩
      · exact .inr hrest

/-- Among distinct expressions, a key belongs to one plan. -/
theorem eq_of_expression {plans : List Plan} (nodup : (plans.map Plan.expression).Nodup)
    {plan plan' : Plan} (h : plan ∈ plans) (h' : plan' ∈ plans)
    (heq : plan.expression = plan'.expression) : plan = plan' :=
  List.inj_on_of_nodup_map nodup h h' heq

/-- Among distinct expressions, a key belongs to one item. -/
theorem Harvested.unique {plans : List Plan} (nodup : (plans.map Plan.expression).Nodup)
    {record : α} {key : FieldKey} {a b : Item} (ha : Harvested plans record key a)
    (hb : Harvested plans record key b) : a = b := by
  obtain ⟨plan, hplan, hexpression, l, leaf, htext, hreach, hitem⟩ := ha
  obtain ⟨plan', hplan', hexpression', l', leaf', htext', hreach', hitem'⟩ := hb
  -- the expression decides the plan, and along the plan the text decides the location
  obtain rfl := eq_of_expression nodup hplan hplan' (hexpression.trans hexpression'.symm)
  obtain ⟨-, rfl⟩ := hreach.eq_of_text hreach' (htext.trans htext'.symm)
  rw [hitem] at hitem'
  exact Option.some.inj hitem'

/-- The batch of a record holds the items found in it. -/
theorem get?_collect {record : α} {plans : List Plan} {items : List (FieldKey × Item)}
    (nodup : (plans.map Plan.expression).Nodup) (h : collect record plans = .ok items)
    (key : FieldKey) (item : Item) :
    (SortedMap.ofList items).get? key = some item ↔ Harvested plans record key item := by
  have consistent : SortedMap.Consistent items := by
    intro key a b ha hb
    exact ((mem_collect h key a).mp ha).unique nodup ((mem_collect h key b).mp hb)
  rw [SortedMap.get?_ofList consistent, mem_collect h]

/-- The batch of a record is made of the items collected from it, if the record is meant. -/
theorem Prepared.batch_eq_ok_iff {p : Prepared} {record : α} {batch : ItemMap} :
    p.batch record = .ok batch ↔
      p.concerns record = .ok false ∧ batch = SortedMap.empty ∨
      p.concerns record = .ok true ∧ ∃ items,
        collect record p.fields.plans = .ok items ∧ batch = SortedMap.ofList items := by
  rw [Prepared.batch, bind_eq_ok_iff]
  constructor
  · rintro ⟨_ | _, hmeant, h⟩
    · exact .inl ⟨hmeant, (Except.ok.inj h).symm⟩
    · obtain ⟨items, hitems, hbatch⟩ := bind_eq_ok_iff.mp h
      exact .inr ⟨hmeant, items, hitems, (Except.ok.inj hbatch).symm⟩
  · rintro (⟨hmeant, rfl⟩ | ⟨hmeant, items, hitems, rfl⟩)
    · exact ⟨false, hmeant, rfl⟩
    · exact ⟨true, hmeant, bind_eq_ok_iff.mpr ⟨items, hitems, rfl⟩⟩

end Collect

/-! ## Replies -/

section Replies

variable {α : Type} [Leaf α]

/-- The replacements made of a reply for one expression are the leaves of the items under its
keys. -/
theorem get?_repliesFor {answers : List (FieldKey × Item)} {find : FieldKey → Option Item}
    (hfind : ∀ key item, find key = some item ↔ (key, item) ∈ answers) (encoding : Encoding)
    (expression path : String) :
    (repliesFor encoding expression answers : Replacements α).get? path =
      (find ⟨expression, path⟩).map (Leaf.ofItem encoding) := by
  have hreplies : (repliesFor encoding expression answers : Replacements α) =
      SortedMap.ofList (answers.filterMap fun entry =>
        if entry.1.expression = expression then
          some (entry.1.path, Leaf.ofItem encoding entry.2) else none) := rfl
  have entries : ∀ path (leaf : α), (path, leaf) ∈ answers.filterMap (fun entry =>
      if entry.1.expression = expression then some (entry.1.path, Leaf.ofItem encoding entry.2)
        else none) ↔ (find ⟨expression, path⟩).map (Leaf.ofItem encoding) = some leaf := by
    intro path leaf
    rw [List.mem_filterMap, Option.map_eq_some_iff]
    constructor
    · rintro ⟨⟨⟨expression', path'⟩, item⟩, hm, heq⟩
      split at heq
      · next hexpression =>
        obtain ⟨rfl, rfl⟩ : path' = path ∧ Leaf.ofItem encoding item = leaf := by
          simpa using heq
        subst hexpression
        exact ⟨item, (hfind _ _).mpr hm, rfl⟩
      · cases heq
    · rintro ⟨item, hitem, rfl⟩
      exact ⟨⟨⟨expression, path⟩, item⟩, (hfind _ _).mp hitem, by simp⟩
  have consistent : SortedMap.Consistent (answers.filterMap fun entry =>
      if entry.1.expression = expression then
        some (entry.1.path, (Leaf.ofItem encoding entry.2 : α)) else none) := by
    intro path a b ha hb
    rw [entries] at ha hb
    exact Option.some.inj (ha.symm.trans hb)
  apply Option.ext
  intro leaf
  rw [hreplies, SortedMap.get?_ofList consistent, entries]

end Replies

end RecordCipher
