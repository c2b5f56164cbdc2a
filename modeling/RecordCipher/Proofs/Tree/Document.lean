import RecordCipher.Json.Tree
import RecordCipher.Proofs.SortedMap
import RecordCipher.Proofs.Tree.Lawful

/-!
# Free documents are lawful trees

The members of an object are found by their keys. Setting a member changes what is found for
its key only, and keeps the members in the order of their keys.

## Main definitions

* `Json.Sound`: every object lists its members in the order of their keys
* `Json.Head`: what a value is apart from its items and members

## Main results

* `member?_setMember`: setting a member changes the member of its key only
* `Json.ext`: a document is determined by the heads at all locations
-/

namespace RecordCipher

/-! ## Members of objects -/

section Members

variable {members : List (String × Json)} {key k : String} {value value' old : Json}

theorem member?_eq_find? (members : List (String × Json)) (key : String) :
    member? members key =
      (members.find? fun entry => compare key entry.1 == .eq).map (·.2) := by
  induction members with
  | nil => rfl
  | cons head rest ih =>
    obtain ⟨k, v⟩ := head
    by_cases h : k = key
    · simp [member?, h]
    · have hne : compare key k ≠ .eq := fun heq => h (Std.LawfulEqCmp.eq_of_compare heq).symm
      simp [member?, h, hne, ih]

theorem InKeyOrder.member?_eq_some_iff (h : InKeyOrder members) :
    member? members key = some value ↔ (key, value) ∈ members := by
  have hget := SortedMap.get?_eq_some_iff ⟨members, h⟩ key value
  rw [← hget, member?_eq_find?]
  rfl

theorem mem_of_member? (h : member? members key = some value) : (key, value) ∈ members := by
  induction members with
  | nil => cases h
  | cons head rest ih =>
    obtain ⟨k, v⟩ := head
    unfold member? at h
    split at h
    · next heq =>
      obtain rfl : v = value := by simpa using h
      simp [heq]
    · exact List.mem_cons_of_mem _ (ih h)

theorem member?_replaceMember_of_ne (hne : k ≠ key) (members : List (String × Json)) :
    member? (replaceMember key value members) k = member? members k := by
  induction members with
  | nil => rfl
  | cons head rest ih =>
    obtain ⟨k', v⟩ := head
    unfold replaceMember
    split
    · next heq => simp [member?, heq, hne.symm]
    · simp [member?, ih]

theorem member?_replaceMember_self (h : member? members key = some old) :
    member? (replaceMember key value members) key = some value := by
  induction members with
  | nil => cases h
  | cons head rest ih =>
    obtain ⟨k', v⟩ := head
    unfold replaceMember
    split
    · next heq => simp [member?, heq]
    · next hne =>
      simp only [member?, hne, if_false] at h ⊢
      exact ih h

theorem replaceMember_replaceMember (members : List (String × Json)) :
    replaceMember key value' (replaceMember key value members) =
      replaceMember key value' members := by
  induction members with
  | nil => rfl
  | cons head rest ih =>
    obtain ⟨k', v⟩ := head
    by_cases h : k' = key <;> simp [replaceMember, h, ih]

/-- Putting the value of a key back changes nothing. -/
theorem replaceMember_member? (h : member? members key = some old) :
    replaceMember key old members = members := by
  induction members with
  | nil => rfl
  | cons head rest ih =>
    obtain ⟨k', v⟩ := head
    unfold member? at h
    split at h
    · next heq =>
      obtain rfl : v = old := by simpa using h
      simp [replaceMember, heq]
    · next hne => simp [replaceMember, hne, ih h]

theorem keys_replaceMember (members : List (String × Json)) :
    (replaceMember key value members).map (·.1) = members.map (·.1) := by
  induction members with
  | nil => rfl
  | cons head rest ih =>
    obtain ⟨k', v⟩ := head
    by_cases h : k' = key <;> simp [replaceMember, h, ih]

theorem mem_replaceMember {entry : String × Json}
    (h : entry ∈ replaceMember key value members) : entry = (key, value) ∨ entry ∈ members := by
  induction members with
  | nil => cases h
  | cons head rest ih =>
    obtain ⟨k', v⟩ := head
    unfold replaceMember at h
    split at h
    · next heq =>
      subst heq
      exact (List.mem_cons.mp h).imp id (List.mem_cons_of_mem _)
    · rcases List.mem_cons.mp h with h | h
      · exact .inr (h ▸ List.mem_cons_self)
      · exact (ih h).imp id (List.mem_cons_of_mem _)

/-- Setting a member changes the member of its key only. -/
theorem member?_setMember (members : List (String × Json)) (key : String) (value : Json)
    (k : String) :
    member? (setMember key value members) k =
      if k = key then some value else member? members k := by
  unfold setMember
  cases h : member? members key with
  | some old =>
    -- a key that is there keeps its place
    by_cases hk : k = key
    · simp [hk, member?_replaceMember_self h]
    · simp [hk, member?_replaceMember_of_ne hk]
  | none =>
    rw [member?_eq_find?, member?_eq_find?, find?_insertEntry]
    by_cases hk : k = key
    · simp [hk]
    · have hne : compare k key ≠ .eq := fun heq => hk (Std.LawfulEqCmp.eq_of_compare heq)
      simp [hk, hne]

theorem mem_setMember {entry : String × Json} (h : entry ∈ setMember key value members) :
    entry = (key, value) ∨ entry ∈ members := by
  unfold setMember at h
  split at h
  · exact mem_replaceMember h
  · exact mem_insertEntry h

theorem InKeyOrder.of_keys {members members' : List (String × Json)} (h : InKeyOrder members)
    (keys : members'.map (·.1) = members.map (·.1)) : InKeyOrder members' := by
  unfold InKeyOrder at h ⊢
  rw [← List.pairwise_map (f := fun entry : String × Json => entry.1)
    (R := fun a b => compare a b = .lt)] at h ⊢
  rwa [keys]

theorem InKeyOrder.setMember (h : InKeyOrder members) (key : String) (value : Json) :
    InKeyOrder (setMember key value members) := by
  unfold RecordCipher.setMember
  split
  · exact h.of_keys (keys_replaceMember members)
  · exact h.insertEntry key value

end Members

namespace Json

/-! ## Heads and soundness -/

/-- What a value is apart from its items and members. -/
inductive Head where
  /-- The value `null`. -/
  | null
  /-- A truth value. -/
  | bool (b : Bool)
  /-- A number. -/
  | number (n : JsonNumber)
  /-- A text. -/
  | string (s : String)
  /-- A list of values, of some length. -/
  | array (length : Nat)
  /-- Values by their keys. -/
  | object
  deriving DecidableEq

/-- The head of a value. -/
def head : Json → Head
  | null => .null
  | bool b => .bool b
  | number n => .number n
  | string s => .string s
  | array items => .array items.length
  | object _ => .object

/-- Every object lists its members in the order of their keys, each key once. -/
inductive Sound : Json → Prop where
  /-- The value `null`. -/
  | null : Sound .null
  /-- A truth value. -/
  | bool (b : Bool) : Sound (.bool b)
  /-- A number. -/
  | number (n : JsonNumber) : Sound (.number n)
  /-- A text. -/
  | string (s : String) : Sound (.string s)
  /-- A list of sound values. -/
  | array {items : List Json} (sound : ∀ item ∈ items, Sound item) : Sound (.array items)
  /-- Sound values in the order of their keys. -/
  | object {members : List (String × Json)} (inOrder : InKeyOrder members)
    (sound : ∀ entry ∈ members, Sound entry.2) : Sound (.object members)

@[simp] theorem sound_null : Sound .null := .null

@[simp] theorem sound_string (s : String) : Sound (.string s) := .string s

@[simp] theorem sound_array_iff (items : List Json) :
    Sound (.array items) ↔ ∀ item ∈ items, Sound item := by
  constructor
  · rintro ⟨⟩
    assumption
  · exact .array

@[simp] theorem sound_object_iff (members : List (String × Json)) :
    Sound (.object members) ↔ InKeyOrder members ∧ ∀ entry ∈ members, Sound entry.2 := by
  constructor
  · rintro ⟨⟩
    exact ⟨‹_›, ‹_›⟩
  · rintro ⟨inOrder, sound⟩
    exact .object inOrder sound

instance : TreeHead Json := ⟨Head, head⟩

theorem child?_field_object (members : List (String × Json)) (name : String) :
    Tree.child? (object members) (.field name) = .ok (member? members name) := rfl

theorem child?_index_array (items : List Json) (i : Nat) :
    Tree.child? (array items) (.index i) = .ok items[i]? := rfl

/-- A document is determined by the heads at all locations. -/
theorem ext {a b : Json} (ha : Sound a) (hb : Sound b) (same : ∀ l, headAt l a = headAt l b) :
    a = b := by
  have h : head a = head b := head_eq_of_headAt same
  -- Induction on the first document; the heads show what the second one can be.
  induction ha generalizing b with
  | null | bool | number | string => cases hb <;> simp_all [head]
  | @array items _ ih =>
    cases hb with
    | @array items' sound' =>
      have length : items.length = items'.length := by simpa [head] using h
      refine congrArg array (List.ext_getElem length fun i hi hi' => ?_)
      have hx : Tree.child? (array items) (.index i) = .ok (some items[i]) := by
        rw [child?_index_array, List.getElem?_eq_getElem hi]
      have hy : Tree.child? (array items') (.index i) = .ok (some items'[i]) := by
        rw [child?_index_array, List.getElem?_eq_getElem hi']
      have below := headAt_child_congr same hx hy
      exact ih _ (List.getElem_mem hi) (sound' _ (List.getElem_mem hi')) below
        (head_eq_of_headAt below)
    | _ => simp [head] at h
  | @object members inOrder _ ih =>
    cases hb with
    | @object members' inOrder' sound' =>
      -- a key that both have has the same value, and a key that one has the other has as well
      have value : ∀ key x y, member? members key = some x → member? members' key = some y →
          x = y := fun key x y hx hy => by
        have hx' : Tree.child? (object members) (.field key) = .ok (some x) := by
          rw [child?_field_object, hx]
        have hy' : Tree.child? (object members') (.field key) = .ok (some y) := by
          rw [child?_field_object, hy]
        have below := headAt_child_congr same hx' hy'
        exact ih _ (mem_of_member? hx) (sound' _ (mem_of_member? hy)) below
          (head_eq_of_headAt below)
      have lookup : ∀ key, member? members key = member? members' key := fun key => by
        have hs := same [.field key]
        rw [headAt_cons, headAt_cons, child?_field_object, child?_field_object] at hs
        cases hx : member? members key <;> cases hy : member? members' key
        · rfl
        · simp [hx, hy] at hs
        · simp [hx, hy] at hs
        · rw [value key _ _ hx hy]
      refine congrArg object (inOrder.ext inOrder' fun ⟨key, x⟩ => ?_)
      rw [← inOrder.member?_eq_some_iff, ← inOrder'.member?_eq_some_iff, lookup]
    | _ => simp [head] at h

/-! ## The laws -/

theorem replaced_setField {node value node' : Json} {name : String}
    (h : setField node name value = .ok () node') : Replaced node (.field name) value node' := by
  cases node with
  | object members =>
    obtain rfl : object (setMember name value members) = node' := by simpa [setField] using h
    refine ⟨rfl, ?_, fun other hne => ?_⟩
    · rw [child?_field_object, member?_setMember, if_pos rfl]
    · cases other with
      | field k =>
        have hk : k ≠ name := fun hk => hne (by rw [hk])
        rw [child?_field_object, member?_setMember, if_neg hk, child?_field_object]
      | index i => rfl
  | _ => cases h

theorem replaced_set {items : List Json} {i : Nat} (hi : i < items.length) (value : Json) :
    Replaced (array items) (.index i) value (array (items.set i value)) := by
  refine ⟨?_, ?_, fun other hne => ?_⟩
  · simp [RecordCipher.head, head]
  · rw [child?_index_array, List.getElem?_set_self hi]
  · cases other with
    | field k => rfl
    | index j =>
      have hj : i ≠ j := fun hj => hne (by rw [hj])
      rw [child?_index_array, List.getElem?_set_ne hj, child?_index_array]

/-- An item is overwritten where there is one. -/
theorem overwrite_eq (i : Nat) (value : Json) (items : List Json) :
    overwrite i value items =
      if i < items.length then .ok () (items.set i value)
      else .error (outOfRange i items.length) items := by
  show (overwrite i value).run items = _
  simp only [overwrite, EStateM.run_bind, EStateM.run_get]
  split <;> rfl

theorem setElement_of_lt {items : List Json} {i : Nat} (hi : i < items.length) (value : Json) :
    setElement (array items) i value = .ok () (array (items.set i value)) := by
  simp [setElement, overwrite_eq, hi, Outcome.ofPart]

theorem setElement_eq_ok {node value node' : Json} {i : Nat}
    (h : setElement node i value = .ok () node') :
    ∃ items, node = array items ∧ i < items.length ∧ node' = array (items.set i value) := by
  cases node with
  | array items =>
    obtain ⟨items', hitems, rfl⟩ := Outcome.ofPart_eq_ok h
    rw [overwrite_eq] at hitems
    split at hitems
    · next hi =>
      cases hitems
      exact ⟨items, rfl, hi, rfl⟩
    · cases hitems
  | _ => cases h

/-- An array without an item at a position is left as it was. -/
theorem setElement_array_eq_error {items : List Json} {value left : Json} {i : Nat}
    {e : AccessError} (h : setElement (array items) i value = .error e left) :
    left = array items ∧ ∃ reason, e = .rejected reason := by
  obtain ⟨_, left', hitems, rfl, rfl⟩ := Outcome.ofPart_eq_error h
  rw [overwrite_eq] at hitems
  split at hitems <;> cases hitems
  exact ⟨rfl, _, rfl⟩

theorem focusField?_eq_some {node : Json} {name : String} {f : Focus Json Json}
    (h : focusField? node name = .ok (some f)) :
    ∃ members old, node = object members ∧ member? members name = some old ∧
      f = ⟨old, fun value => object (replaceMember name value members)⟩ := by
  cases node with
  | object members =>
    cases hm : member? members name with
    | none => simp [focusField?, hm] at h
    | some old => exact ⟨members, old, rfl, hm, by simpa [focusField?, hm] using h.symm⟩
  | _ => cases h

theorem focusElements?_eq_some {node : Json} {f : Focus Json (List Json)}
    (h : focusElements? node = some f) : ∃ items, node = array items ∧ f = ⟨items, array⟩ := by
  cases node with
  | array items => exact ⟨items, rfl, by simpa [focusElements?] using h.symm⟩
  | _ => cases h

/-- Setting a member or an item replaces it. -/
theorem replaced_setChild {node value node' : Json} {step : Location.Step}
    (h : Tree.setChild node step value = .ok () node') : Replaced node step value node' := by
  cases step with
  | field name => exact replaced_setField h
  | index i =>
    obtain ⟨items, rfl, hi, rfl⟩ := setElement_eq_ok h
    exact replaced_set hi value

/-- Where there is a member, setting it is replacing it. -/
theorem setField_of_member? {members : List (String × Json)} {name : String} {old : Json}
    (h : member? members name = some old) (value : Json) :
    setField (object members) name value = .ok () (object (replaceMember name value members)) := by
  simp [setField, setMember, h]

/-- What is put in focus takes the place of the member. -/
theorem replaced_put {node : Json} {name : String} {f : Focus Json Json}
    (h : focusField? node name = .ok (some f)) (value : Json) :
    Replaced node (.field name) value (f.put value) := by
  obtain ⟨members, old, rfl, hm, rfl⟩ := focusField?_eq_some h
  exact replaced_setField (setField_of_member? hm value)

theorem Sound.setField {node value node' : Json} {name : String} (h : Sound node)
    (hv : Sound value) (hset : setField node name value = .ok () node') : Sound node' := by
  cases h with
  | object inOrder sound =>
    obtain rfl : _ = node' := by simpa [Json.setField] using hset
    refine .object (inOrder.setMember name value) fun entry hm => ?_
    rcases mem_setMember hm with rfl | hm
    · exact hv
    · exact sound entry hm
  | _ => cases hset

theorem Sound.set {items : List Json} (h : Sound (.array items)) {value : Json}
    (hv : Sound value) (i : Nat) : Sound (.array (items.set i value)) := by
  cases h with
  | array sound =>
    refine .array fun item hm => ?_
    rcases List.mem_or_eq_of_mem_set hm with hm | rfl
    · exact sound item hm
    · exact hv

theorem Sound.child {node child : Json} {step : Location.Step} (h : Sound node)
    (hc : Tree.child? node step = .ok (some child)) : Sound child := by
  cases h with
  | array sound =>
    cases step with
    | field name => cases hc
    | index i => exact sound _ (List.mem_of_getElem? (by simpa [child?_index_array] using hc))
  | object inOrder sound =>
    cases step with
    | field name => exact sound _ (mem_of_member? (by simpa [child?_field_object] using hc))
    | index i => cases hc
  | _ => cases step <;> cases hc

end Json

/-- Free documents are lawful trees. -/
instance : LawfulTree Json where
  Sound := Json.Sound
  kind_congr {a b} h := by cases a <;> cases b <;> first | rfl | cases h
  isNull_congr {a b} h := by cases a <;> cases b <;> first | rfl | cases h
  length?_congr {a b} h := by
    cases a <;> cases b <;> first | rfl | cases h | exact congrArg some (Json.Head.array.inj h)
  elements?_of_isNull {node} h := by cases node <;> first | rfl | cases h
  field?_of_isNull {node name} h := by cases node <;> first | exact ⟨_, rfl⟩ | cases h
  field?_eq node name := by
    cases node with
    | object members =>
      simp [Tree.field?, Json.field?, Tree.focusField?, Json.focusField?, Except.map,
        Function.comp_def]
    | _ => rfl
  elements?_eq node := by cases node <;> rfl
  put_field_self h := by
    obtain ⟨members, old, rfl, hm, rfl⟩ := Json.focusField?_eq_some h
    simp [replaceMember_member? hm]
  put_elements_self h := by
    obtain ⟨items, rfl, rfl⟩ := Json.focusElements?_eq_some h
    rfl
  focusField?_put h value := by
    obtain ⟨members, old, rfl, hm, rfl⟩ := Json.focusField?_eq_some h
    simp [Tree.focusField?, Json.focusField?, member?_replaceMember_self hm,
      replaceMember_replaceMember]
  focusElements?_put h items := by
    obtain ⟨_, rfl, rfl⟩ := Json.focusElements?_eq_some h
    rfl
  head_put_field h value := by
    obtain ⟨members, old, rfl, -, rfl⟩ := Json.focusField?_eq_some h
    rfl
  replaced_put_field _ := Json.replaced_put
  head_put_elements h items hlen := by
    obtain ⟨_, rfl, rfl⟩ := Json.focusElements?_eq_some h
    exact congrArg Json.Head.array hlen
  field?_put_elements h items name := by
    obtain ⟨_, rfl, rfl⟩ := Json.focusElements?_eq_some h
    rfl
  replaced_setChild _ := Json.replaced_setChild
  sound_child := Json.Sound.child
  sound_put_field hs h hv := by
    obtain ⟨members, old, rfl, hm, rfl⟩ := Json.focusField?_eq_some h
    exact hs.setField hv (Json.setField_of_member? hm _)
  sound_put_elements h hitems := by
    obtain ⟨_, rfl, rfl⟩ := Json.focusElements?_eq_some h
    exact .array hitems
  sound_setChild {node value node' step} hs hv h := by
    cases step with
    | field name => exact hs.setField hv h
    | index i =>
      obtain ⟨items, rfl, hi, rfl⟩ := Json.setElement_eq_ok h
      exact hs.set hv i
  ext := Json.ext

end RecordCipher
