import RecordCipher.Proofs.Exchange.Leaves
import RecordCipher.Proofs.Pipeline.Harvest

/-!
# Writing a reply back

A reply is written back expression by expression, each time into what the expressions before
have made of the record. Their plans may overlap in every way. Still none of them gets in the
way of another: each of them only puts leaves in place of leaves, and so leaves the record alike
for all that come after it. What is in the place of a leaf in the end was put there by the last
plan that leads to it and has an item for it.

## Main definitions

* `Plan.leadsTo`, `lastAnswer`: the item that counts for a location
* `Json.substitute`: a document with other leaves in place of some of its own

## Main results

* `exists_splice`, `splice_spec`: writing a reply back succeeds, and what the record is then
* `Pipeline.transform_eq_answered`: the same for a document that goes through a pipeline
-/

namespace RecordCipher

section Splice

variable {α : Type} [Leaf α]

/-- Whether a plan leads to a location in a record. -/
def Plan.leadsTo (plan : Plan) (record : α) (l : Location) : Bool :=
  match reach plan.tasks record with
  | .ok reached => reached.any fun here => decide (here.location = l)
  | .error _ => false

/-- The item that counts for a location: the one of the last plan that leads there and has
one. -/
def lastAnswer (find : FieldKey → Option Item) (record : α) :
    List Plan → Location → Option Item
  | [], _ => none
  | plan :: rest, l =>
    (lastAnswer find record rest l).or
      (if plan.leadsTo record l then find ⟨plan.expression, l.text⟩ else none)

theorem Plan.leadsTo_iff {plan : Plan} {record : α} (h : Readable plan.tasks record)
    (l : Location) :
    plan.leadsTo record l = true ↔ ∃ node, Reaches plan.tasks record l node := by
  obtain ⟨reached, hreached⟩ := (reach_ok_iff plan.tasks record).mpr h
  rw [leadsTo, hreached]
  simp only [List.any_eq_true, decide_eq_true_eq]
  constructor
  · rintro ⟨⟨l', node⟩, hm, rfl⟩
    exact ⟨node, (mem_reach hreached l' node).mp hm⟩
  · rintro ⟨node, hreach⟩
    exact ⟨⟨l, node⟩, (mem_reach hreached l node).mpr hreach, rfl⟩

/-- What counts for a location was found under the key of a plan that leads there. -/
theorem exists_of_lastAnswer {find : FieldKey → Option Item} {record : α} {plans : List Plan}
    {l : Location} {item : Item} (h : lastAnswer find record plans l = some item) :
    ∃ plan ∈ plans, plan.leadsTo record l = true ∧
      find ⟨plan.expression, l.text⟩ = some item := by
  induction plans with
  | nil => cases h
  | cons plan rest ih =>
    rw [lastAnswer, Option.or_eq_some_iff] at h
    rcases h with hrest | ⟨-, hplan⟩
    · obtain ⟨other, hm, hleads⟩ := ih hrest
      exact ⟨other, List.mem_cons_of_mem _ hm, hleads⟩
    · split at hplan
      · next hleads => exact ⟨plan, List.mem_cons_self, hleads, hplan⟩
      · cases hplan

variable [LawfulLeaf α]

theorem Plan.leadsTo_congr {plan : Plan} {a b : α} (halike : Alike a b)
    (h : Readable plan.tasks a) (l : Location) : plan.leadsTo a l = plan.leadsTo b l := by
  have hiff : plan.leadsTo a l = true ↔ plan.leadsTo b l = true := by
    rw [leadsTo_iff h, leadsTo_iff (halike.readable h)]
    constructor
    · rintro ⟨node, hreach⟩
      obtain ⟨node', hreach', -⟩ := halike.reaches hreach
      exact ⟨node', hreach'⟩
    · rintro ⟨node, hreach⟩
      obtain ⟨node', hreach', -⟩ := halike.symm.reaches hreach
      exact ⟨node', hreach'⟩
  exact Bool.eq_iff_iff.mpr hiff

theorem lastAnswer_congr {find : FieldKey → Option Item} {plans : List Plan} {a b : α}
    (halike : Alike a b) (h : ∀ plan ∈ plans, Readable plan.tasks a) (l : Location) :
    lastAnswer find a plans l = lastAnswer find b plans l := by
  induction plans with
  | nil => rfl
  | cons plan rest ih =>
    rw [lastAnswer, lastAnswer, ih fun other hm => h other (List.mem_cons_of_mem _ hm),
      Plan.leadsTo_congr halike (h plan List.mem_cons_self)]

variable {encoding : Encoding} {answers : List (FieldKey × Item)}
  {find : FieldKey → Option Item} {plans : List Plan} {record out : α}

/-- Writing a reply back succeeds when its leaves are of the kinds they take the place of. -/
theorem exists_splice (hs : Sound record) (ht : Typed record) (hroot : RootUniform record)
    (hread : ∀ plan ∈ plans, Readable plan.tasks record)
    (hans : ∀ plan ∈ plans,
      plan.Answered (repliesFor encoding plan.expression answers) record)
    (hfitting : ∀ plan ∈ plans, ∀ l (value leaf : α),
      (repliesFor encoding plan.expression answers).get? l.text = some value →
        Reaches plan.tasks record l leaf → Tree.kind value = Tree.kind leaf) :
    ∃ out, splice encoding answers plans record = .ok out := by
  -- Induction on the plans. What one of them has written is alike for those that come after it.
  induction plans generalizing record with
  | nil => exact ⟨record, rfl⟩
  | cons plan rest ih =>
    rw [List.forall_mem_cons] at hread hans hfitting
    obtain ⟨written, hwrite⟩ := Plan.exists_write hs ht hread.1 hans.1 hfitting.1
    have halike := (Plan.write_alike hs ht hroot hans.1 hwrite).symm
    obtain ⟨out, hout⟩ : ∃ out, splice encoding answers rest written = .ok out := by
      apply ih (Plan.sound_write hans.1.allSound hs hwrite) (LawfulLeaf.typed_congr halike ht)
        (hroot.congr halike)
      · intro other hm
        exact halike.readable (hread.2 other hm)
      · intro other hm
        exact (hans.2 other hm).congr halike
      · intro other hm l value leaf' hget hreach'
        obtain ⟨leaf, hreach, hlike⟩ := halike.symm.reaches hreach'
        rw [hfitting.2 other hm l value leaf hget hreach, hlike.kind_eq]
    exact ⟨out, bind_eq_ok_iff.mpr ⟨written, hwrite, hout⟩⟩

/-- What a record is after a reply was written back: in the place of each leaf there is what
counts for its location, if anything, and everything else is as it was. -/
theorem splice_spec (hfind : ∀ key item, find key = some item ↔ (key, item) ∈ answers)
    (hs : Sound record) (ht : Typed record) (hroot : RootUniform record)
    (hread : ∀ plan ∈ plans, Readable plan.tasks record)
    (hans : ∀ plan ∈ plans,
      plan.Answered (repliesFor encoding plan.expression answers) record)
    (h : splice encoding answers plans record = .ok out) :
    Sound out ∧ Alike out record ∧ ∀ l, headAt l out =
      match lastAnswer find record plans l with
      | some item => .ok (some (head (Leaf.ofItem encoding item : α)))
      | none => headAt l record := by
  -- Induction on the plans, for whatever alike record the ones before have made.
  induction plans generalizing record with
  | nil =>
    obtain rfl : record = out := by simpa [splice] using h
    exact ⟨hs, Alike.refl record, fun l => rfl⟩
  | cons plan rest ih =>
    rw [List.forall_mem_cons] at hread hans
    obtain ⟨written, hwrite, hrest⟩ := bind_eq_ok_iff.mp h
    have halike := Plan.write_alike hs ht hroot hans.1 hwrite
    have hs' := Plan.sound_write hans.1.allSound hs hwrite
    obtain ⟨sound, alike, heads⟩ := ih hs' (LawfulLeaf.typed_congr halike.symm ht)
      (hroot.congr halike.symm) (fun other hm => halike.symm.readable (hread.2 other hm))
      (fun other hm => (hans.2 other hm).congr halike.symm) hrest
    refine ⟨sound, alike.trans halike, fun l => ?_⟩
    rw [heads l, lastAnswer, lastAnswer_congr halike
      fun other hm => halike.symm.readable (hread.2 other hm)]
    cases lastAnswer find record rest l with
    | some item => rfl
    | none =>
      -- no later plan counts, so that this one decides
      obtain ⟨replaced, kept⟩ := Plan.headAt_write_answers hs ht hroot hans.1 hwrite l
      have hget : (repliesFor encoding plan.expression answers : Replacements α).get? l.text =
          (find ⟨plan.expression, l.text⟩).map (Leaf.ofItem encoding) :=
        get?_repliesFor hfind encoding plan.expression l.text
      rw [Option.none_or]
      by_cases hleads : plan.leadsTo record l = true
      · rw [if_pos hleads]
        obtain ⟨leaf, hreach⟩ := (Plan.leadsTo_iff hread.1 l).mp hleads
        cases hitem : find ⟨plan.expression, l.text⟩ with
        | some item => exact replaced leaf _ hreach (by rw [hget, hitem]; rfl)
        | none => exact kept fun leaf value _ hvalue => by simp [hget, hitem] at hvalue
      · rw [if_neg hleads]
        apply kept
        intro leaf value hreach
        exact absurd ((Plan.leadsTo_iff hread.1 l).mpr ⟨leaf, hreach⟩) hleads

/-- A reply whose keys are among those of the collected items has leaves only for leaves that the
plans lead to. -/
theorem answered_of_collect {items : List (FieldKey × Item)}
    (nodup : (plans.map Plan.expression).Nodup) (hitems : collect record plans = .ok items)
    (hfind : ∀ key item, find key = some item ↔ (key, item) ∈ answers)
    (hkeys : ∀ key, (find key).isSome → ((SortedMap.ofList items).get? key).isSome) :
    ∀ plan ∈ plans, plan.Answered (repliesFor encoding plan.expression answers) record := by
  intro plan hplan path value hget
  rw [get?_repliesFor hfind] at hget
  obtain ⟨item, hitem, rfl⟩ := Option.map_eq_some_iff.mp hget
  refine ⟨LawfulLeaf.isLeaf_ofItem encoding item, ?_⟩
  obtain ⟨found, hfound⟩ := Option.isSome_iff_exists.mp
    (hkeys ⟨plan.expression, path⟩ (by rw [hitem]; rfl))
  obtain ⟨plan', hplan', hexpression, l, leaf, htext, hreach, hleaf⟩ :=
    (get?_collect nodup hitems _ _).mp hfound
  obtain rfl := eq_of_expression nodup hplan' hplan hexpression
  exact ⟨l, leaf, htext, hreach, by rw [isLeaf, hleaf]; rfl⟩

end Splice

/-! ## Documents -/

namespace Json

mutual

/-- A document with other leaves in place of some of its own: at each location where `leafAt`
has one it stands there. -/
def substitute (leafAt : Location → Option Json) (here : Location) : Json → Json
  | array items => array (substituteItems leafAt here 0 items)
  | object members => object (substituteMembers leafAt here members)
  | other => (leafAt here).getD other

/-- The items of an array from position `i` on, with other leaves in place of some of theirs. -/
def substituteItems (leafAt : Location → Option Json) (here : Location) :
    (i : Nat) → List Json → List Json
  | _, [] => []
  | i, item :: rest =>
    substitute leafAt (here.index i) item :: substituteItems leafAt here (i + 1) rest

/-- The members of an object, with other leaves in place of some of theirs. -/
def substituteMembers (leafAt : Location → Option Json) (here : Location) :
    List (String × Json) → List (String × Json)
  | [] => []
  | (key, value) :: rest =>
    (key, substitute leafAt (here.field key) value) :: substituteMembers leafAt here rest

end

section Substitute

variable {leafAt : Location → Option Json}

theorem getElem?_substituteItems (here : Location) (i : Nat) (items : List Json) (k : Nat) :
    (substituteItems leafAt here i items)[k]? =
      items[k]?.map (substitute leafAt (here.index (i + k))) := by
  induction items generalizing i k with
  | nil => simp [substituteItems]
  | cons item rest ih =>
    cases k with
    | zero => simp [substituteItems]
    | succ k =>
      have shift : i + (k + 1) = i + 1 + k := by omega
      simp [substituteItems, ih, shift]

theorem length_substituteItems (here : Location) (i : Nat) (items : List Json) :
    (substituteItems leafAt here i items).length = items.length := by
  induction items generalizing i with
  | nil => rfl
  | cons item rest ih => simp [substituteItems, ih]

theorem member?_substituteMembers (here : Location) (members : List (String × Json))
    (key : String) : member? (substituteMembers leafAt here members) key =
      (member? members key).map (substitute leafAt (here.field key)) := by
  induction members with
  | nil => rfl
  | cons entry rest ih =>
    obtain ⟨k, value⟩ := entry
    rw [substituteMembers, member?, member?]
    by_cases hk : k = key
    · simp [hk]
    · simp [hk, ih]

theorem keys_substituteMembers (here : Location) (members : List (String × Json)) :
    (substituteMembers leafAt here members).map (·.1) = members.map (·.1) := by
  induction members with
  | nil => rfl
  | cons entry rest ih => simp [substituteMembers, ih]

theorem mem_substituteMembers {here : Location} {members : List (String × Json)}
    {entry : String × Json} (h : entry ∈ substituteMembers leafAt here members) :
    ∃ old ∈ members, entry = (old.1, substitute leafAt (here.field old.1) old.2) := by
  induction members with
  | nil => cases h
  | cons old rest ih =>
    rcases List.mem_cons.mp h with rfl | h
    · exact ⟨old, by simp, rfl⟩
    · obtain ⟨other, hm, heq⟩ := ih h
      exact ⟨other, List.mem_cons_of_mem _ hm, heq⟩

theorem sound_substitute (hleaf : ∀ l leaf, leafAt l = some leaf → isLeaf leaf = true)
    {node : Json} (h : Sound node) (here : Location) : Sound (substitute leafAt here node) := by
  have scalar : ∀ here (other : Json), Sound other → Sound ((leafAt here).getD other) := by
    intro here other hother
    cases hl : leafAt here with
    | none => exact hother
    | some leaf => exact LawfulLeaf.sound_leaf (hleaf here leaf hl)
  -- Induction on the document: its arrays keep their length, its objects their keys.
  induction h generalizing here with
  | null => exact scalar here _ .null
  | bool b => exact scalar here _ (.bool b)
  | number n => exact scalar here _ (.number n)
  | string s => exact scalar here _ (.string s)
  | @array items _ ih =>
    refine .array fun item hm => ?_
    obtain ⟨k, hk⟩ := List.mem_iff_getElem?.mp hm
    rw [getElem?_substituteItems] at hk
    obtain ⟨old, hold, rfl⟩ := Option.map_eq_some_iff.mp hk
    exact ih old (List.mem_of_getElem? hold) _
  | @object members inOrder _ ih =>
    refine .object (inOrder.of_keys (keys_substituteMembers here members)) ?_
    intro entry hm
    obtain ⟨old, hold, rfl⟩ := mem_substituteMembers hm
    exact ih old hold _

/-- One step below a document with other leaves there is what was there before, with other
leaves. -/
theorem child?_substitute (hleaf : ∀ l leaf, leafAt l = some leaf → isLeaf leaf = true)
    {node : Json} {here : Location} (hnode : ∀ leaf, leafAt here = some leaf → isLeaf node = true)
    (step : Location.Step) :
    Tree.child? (substitute leafAt here node) step =
      (Tree.child? node step).map (Option.map (substitute leafAt (here ++ [step]))) := by
  -- below a value without parts there is nothing, even if another leaf takes its place
  have kept : substitute leafAt here node = (leafAt here).getD node →
      Tree.child? (substitute leafAt here node) step = Tree.child? node step := by
    intro hsub
    rw [hsub]
    cases hl : leafAt here with
    | none => rfl
    | some leaf =>
      have hold := hnode leaf hl
      have hnew := hleaf here leaf hl
      exact LawfulLeaf.child?_leaf hnew hold (by rw [kind_leaf hnew, kind_leaf hold]) step
  cases node with
  | array items =>
    cases step with
    | field name => rfl
    | index k =>
      rw [substitute, child?_index_array, child?_index_array, getElem?_substituteItems,
        Nat.zero_add]
      rfl
  | object members =>
    cases step with
    | index k => rfl
    | field name =>
      rw [substitute, child?_field_object, child?_field_object, member?_substituteMembers]
      rfl
  | null => rw [kept rfl]; cases step <;> rfl
  | bool b => rw [kept rfl]; cases step <;> rfl
  | number n => rw [kept rfl]; cases step <;> rfl
  | string s => rw [kept rfl]; cases step <;> rfl

theorem isLeaf_of_substituted {node : Json} {here : Location}
    (honly : ∀ l leaf, leafAt (here ++ l) = some leaf →
      ∃ old, nodeAt? l node = .ok (some old) ∧ isLeaf old = true) :
    ∀ leaf, leafAt here = some leaf → isLeaf node = true := by
  intro leaf hl
  obtain ⟨old, hold, hleaf⟩ := honly [] leaf (by simpa using hl)
  obtain rfl : node = old := by simpa using hold
  exact hleaf

/-- What is in a document with other leaves: theirs where there are any, and what was there
before everywhere else. -/
theorem headAt_substitute (hleaf : ∀ l leaf, leafAt l = some leaf → isLeaf leaf = true)
    {node : Json} {here : Location} (l : Location)
    (honly : ∀ l leaf, leafAt (here ++ l) = some leaf →
      ∃ old, nodeAt? l node = .ok (some old) ∧ isLeaf old = true) :
    headAt l (substitute leafAt here node) =
      match leafAt (here ++ l) with
      | some leaf => .ok (some (RecordCipher.head leaf))
      | none => headAt l node := by
  -- Induction on the location, one step below the document at a time.
  induction l generalizing node here with
  | nil =>
    have hnode := isLeaf_of_substituted honly
    rw [List.append_nil, headAt_nil, headAt_nil]
    cases hl : leafAt here with
    | some leaf =>
      obtain ⟨s, rfl⟩ := (isLeaf_iff node).mp (hnode leaf hl)
      simp [substitute, hl]
    | none =>
      cases node <;> simp [substitute, hl, RecordCipher.head, head, length_substituteItems]
  | cons step below ih =>
    have shift : here ++ step :: below = here ++ [step] ++ below := by simp
    -- a leaf takes the place only of what is there
    have absent : (¬ ∃ child, Tree.child? node step = .ok (some child)) →
        leafAt (here ++ step :: below) = none := by
      intro hnone
      by_contra hsome
      obtain ⟨leaf, hl⟩ := Option.ne_none_iff_exists'.mp hsome
      obtain ⟨old, hold, -⟩ := honly (step :: below) leaf hl
      rw [nodeAt?_cons] at hold
      rcases hc : Tree.child? node step with e | _ | child <;> simp only [hc] at hold
      · cases hold
      · cases hold
      · exact hnone ⟨child, hc⟩
    have hchild := child?_substitute hleaf (isLeaf_of_substituted honly) step
    rw [headAt_cons, headAt_cons, hchild]
    rcases hc : Tree.child? node step with e | _ | child
    · rw [absent (by simp [hc])]
      rfl
    · rw [absent (by simp [hc])]
      rfl
    · rw [shift]
      apply ih
      intro l leaf hl
      obtain ⟨old, hold, hleaf'⟩ := honly (step :: l) leaf (by simpa using hl)
      rw [nodeAt?_cons, hc] at hold
      exact ⟨old, hold, hleaf'⟩

end Substitute

end Json

/-- Every leaf of a document is of the kind of all others. -/
theorem Json.rootUniform (record : Json) : RootUniform record := by
  intro leaf hrecord hleaf
  rw [kind_leaf hrecord, kind_leaf hleaf]

/-- What a reply makes of a document: in the place of each leaf that the plans lead to there is
the leaf of the item that counts for its location, if there is one. -/
def Prepared.answered (p : Prepared) (record : Json) (reply : ItemMap) : Json :=
  record.substitute
    (fun l => (lastAnswer reply.get? record p.fields.plans l).map
      (Leaf.ofItem p.settings.encoding)) Location.root

/-- Writing a reply back to a document succeeds, in whatever order the reply is gone through. -/
theorem Prepared.splice_eq_answered {settings : Settings} {p : Prepared}
    (hp : ofSettings settings = .ok p) {record : Json} (hs : Sound record)
    {items : List (FieldKey × Item)} (hitems : collect record p.fields.plans = .ok items)
    {reply : ItemMap}
    (hkeys : ∀ key, (reply.get? key).isSome → ((SortedMap.ofList items).get? key).isSome)
    {answers : List (FieldKey × Item)} (hperm : answers.Perm reply.entries) :
    splice p.settings.encoding answers p.fields.plans record = .ok (p.answered record reply) := by
  obtain ⟨-, hfields, -⟩ := Prepared.of_ofSettings hp
  have nodup := FieldPlans.nodup_of_compile hfields
  have harvest := (collect_ok_iff record p.fields.plans).mp ⟨items, hitems⟩
  have hread : ∀ plan ∈ p.fields.plans, Readable plan.tasks record :=
    fun plan hm => (harvest plan hm).1
  have hfind : ∀ key item, reply.get? key = some item ↔ (key, item) ∈ answers := by
    intro key item
    rw [SortedMap.get?_eq_some_iff, hperm.mem_iff]
  have hans : ∀ plan ∈ p.fields.plans,
      plan.Answered (repliesFor p.settings.encoding plan.expression answers) record :=
    answered_of_collect nodup hitems hfind hkeys
  obtain ⟨out, hout⟩ : ∃ out,
      splice p.settings.encoding answers p.fields.plans record = .ok out := by
    -- in a document every leaf is of the kind of all others
    apply exists_splice hs trivial record.rootUniform hread hans
    intro plan hm l value leaf hget hreach
    rw [Json.kind_leaf (hans plan hm _ _ hget).1,
      Json.kind_leaf ((harvest plan hm).2 l leaf hreach)]
  obtain ⟨sound, -, heads⟩ :=
    splice_spec hfind hs trivial record.rootUniform hread hans hout
  have hleaf : ∀ l leaf, (lastAnswer reply.get? record p.fields.plans l).map
      (Leaf.ofItem p.settings.encoding) = some leaf → isLeaf (leaf : Json) = true := by
    intro l leaf hl
    obtain ⟨item, -, rfl⟩ := Option.map_eq_some_iff.mp hl
    exact LawfulLeaf.isLeaf_ofItem _ _
  rw [hout]
  refine congrArg Except.ok (LawfulTree.ext sound (Json.sound_substitute hleaf hs _) fun l => ?_)
  rw [heads l, Prepared.answered, Json.headAt_substitute hleaf l]
  · simp only [Location.root, List.nil_append]
    cases lastAnswer reply.get? record p.fields.plans l <;> rfl
  · intro l leaf hl
    obtain ⟨item, hitem, -⟩ := Option.map_eq_some_iff.mp hl
    obtain ⟨plan, hm, hleads, -⟩ := exists_of_lastAnswer hitem
    obtain ⟨old, hreach⟩ := (Plan.leadsTo_iff (hread plan hm) _).mp hleads
    exact ⟨old, hreach.nodeAt?, (harvest plan hm).2 _ old hreach⟩

/-- A document that is meant, and in which all configured expressions find leaves and something
at all, becomes what the reply makes of it, whatever the service replies, as long as it replies
to keys that it was given: no expression fails to be written back. What it becomes does not
depend on the order in which the reply is gone through. -/
theorem Pipeline.transform_eq_answered {m : Type → Type} [Monad m] [LawfulMonad m]
    {settings : Settings} {p : Pipeline m}
    (hp : Prepared.ofSettings settings = .ok p.toPrepared) {record : Json} (hs : Sound record)
    (hmeant : p.concerns record = .ok true) {items : List (FieldKey × Item)}
    (hitems : collect record p.fields.plans = .ok items) (hne : items ≠ [])
    (answer : m {reply : ItemMap // ∀ key, (reply.get? key).isSome →
      ((SortedMap.ofList items).get? key).isSome})
    (hanswer : p.service.process (SortedMap.ofList items) =
      (fun reply => .ok reply.1) <$> answer) :
    p.transform record = (fun reply => .ok (p.answered record reply.1)) <$> answer ∧
      ∀ reply : ItemMap, (∀ key, (reply.get? key).isSome →
          ((SortedMap.ofList items).get? key).isSome) →
        ∀ answers : List (FieldKey × Item), answers.Perm reply.entries →
          splice p.settings.encoding answers p.fields.plans record =
            .ok (p.answered record reply) := by
  refine ⟨?_, fun reply hkeys answers hperm =>
    Prepared.splice_eq_answered hp hs hitems hkeys hperm⟩
  have hbatch : p.batch record = .ok (SortedMap.ofList items) := by
    simp [Prepared.batch, hmeant, hitems, bind, Except.bind, pure, Except.pure]
  have hnonempty : (SortedMap.ofList items).isEmpty = false := by
    rw [SortedMap.isEmpty_ofList]
    simpa using hne
  have hupdate : ∀ reply : {reply : ItemMap // ∀ key, (reply.get? key).isSome →
      ((SortedMap.ofList items).get? key).isSome},
      p.update record reply.1 = .ok (p.answered record reply.1) := by
    intro reply
    rw [Prepared.update,
      Prepared.splice_eq_answered hp hs hitems reply.2 (List.Perm.refl _)]
    rfl
  simp only [transform, hbatch, hnonempty, Bool.false_eq_true, if_false, hanswer, bind_map_left,
    hupdate, bind_pure_comp]

/-- One field under two notations, both of which are answered, and an array with an element that
is not answered: the notation that was configured last decides. -/
theorem Pipeline.transform_eq_answered_two_notations :
    Pipeline.transform
      ⟨⟨{ fields := ["$.a", "$['a']", "$.l[*]"], mode := .encrypt },
        ⟨[⟨"$.a", [.field "a"]⟩, ⟨"$['a']", [.field "a"]⟩,
          ⟨"$.l[*]", [.field "l", .elements .every]⟩]⟩, none⟩,
        Service.plain fun _ => (pure (.ok (SortedMap.ofList
          [(⟨"$.a", "$.a"⟩, .text "1"), (⟨"$['a']", "$.a"⟩, .text "2")])) : Id _)⟩
      (Json.object [("a", .string "x"), ("l", .array [.string "y", .null])]) =
        pure (.ok (Json.object [("a", .string "2"), ("l", .array [.string "y", .null])])) := by
  have sound : Sound (Json.object
      [("a", .string "x"), ("l", .array [.string "y", .null])]) := by
    show Json.Sound _
    simp [InKeyOrder, show compare "a" "l" = .lt by decide]
  have harvest : collect (Json.object [("a", .string "x"), ("l", .array [.string "y", .null])])
      [⟨"$.a", [.field "a"]⟩, ⟨"$['a']", [.field "a"]⟩,
        ⟨"$.l[*]", [.field "l", .elements .every]⟩] =
      .ok [(⟨"$.a", "$.a"⟩, .text "x"), (⟨"$['a']", "$.a"⟩, .text "x"),
        (⟨"$.l[*]", "$.l[0]"⟩, .text "y")] := rfl
  have keys : ∀ key, ((SortedMap.ofList [(FieldKey.mk "$.a" "$.a", Item.text "1"),
      (⟨"$['a']", "$.a"⟩, .text "2")]).get? key).isSome →
      ((SortedMap.ofList [(FieldKey.mk "$.a" "$.a", Item.text "x"),
        (⟨"$['a']", "$.a"⟩, .text "x"), (⟨"$.l[*]", "$.l[0]"⟩, .text "y")]).get?
          key).isSome := by
    intro key hsome
    obtain ⟨item, hget⟩ := Option.isSome_iff_exists.mp hsome
    have hm := SortedMap.mem_of_get?_ofList hget
    simp only [List.mem_cons, Prod.mk.injEq, List.not_mem_nil, or_false] at hm
    rcases hm with ⟨rfl, -⟩ | ⟨rfl, -⟩ <;> rfl
  exact (Pipeline.transform_eq_answered
    (show Prepared.ofSettings { fields := ["$.a", "$['a']", "$.l[*]"], mode := .encrypt } = _
      from rfl) sound rfl harvest (by simp) (pure ⟨_, keys⟩) rfl).1

end RecordCipher
