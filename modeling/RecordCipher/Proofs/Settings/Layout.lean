import Mathlib.Data.List.Forall2
import Mathlib.Data.List.Nodup
import RecordCipher.Proofs.Json.Reading

/-!
# Structures are read however they are laid out

An entry says which values a member of a structure can have and whether it can be left out. A value
lays the structure out when it is an object with some of the members in any order, or an array with
the first members in the order of their declaration, and what is missing can be left out. Reading
takes either form through drafts. When the draft at any time is known from the keys that were given
until then, it does not matter in which order they came.

## Main definitions

* `Entry`, `LaidOut`: the members of a structure, and the values that lay it out
* `Complete`: nothing is missing that cannot be left out
* `Layout.Serves`: what is read of a member depends on the keys that were given alone

## Main results

* `Layout.readMembers_spelled`: the members of an object are read in any order
* `Layout.readElements_spelled`: the elements of an array are read as the first members
* `Layout.Serves.reads`: a structure is read however it is laid out
-/

namespace RecordCipher

/-- A member of a structure as it can be written. -/
structure Entry where
  /-- The key of the member. -/
  name : String
  /-- The values it can have. -/
  admits : Json → Prop
  /-- Whether it can be left out. -/
  omissible : Prop

/-- No entry is missing among the keys that were given unless it can be left out. -/
def Complete (entries : List Entry) (given : List String) : Prop :=
  ∀ entry ∈ entries, entry.name ∈ given ∨ entry.omissible

/-- The values that lay out a structure with the given entries. -/
inductive LaidOut (entries : List Entry) : Json → Prop where
  /-- An object, with its members in any order. -/
  | object {members : List (String × Json)} (once : (members.map Prod.fst).Nodup)
    (admitted : ∀ member ∈ members, ∃ entry ∈ entries,
      entry.name = member.1 ∧ entry.admits member.2)
    (complete : Complete entries (members.map Prod.fst)) : LaidOut entries (.object members)
  /-- An array, with the first members in the order of the entries. -/
  | array {front back : List Entry} {items : List Json} (declared : front ++ back = entries)
    (admitted : List.Forall₂ Entry.admits front items)
    (omitted : ∀ entry ∈ back, entry.omissible) : LaidOut entries (.array items)

theorem LaidOut.ne_null {entries : List Entry} {value : Json} (h : LaidOut entries value) :
    value ≠ .null := by
  cases h <;> simp

/-- What has been read of a member: its value once its key was given. -/
def drafted {β : Type} (given : List String) (name : String) (b : β) : Option β :=
  if name ∈ given then some b else none

section drafted

variable {β : Type} {given : List String} {name : String} {b : β}

@[simp] theorem drafted_cons_self : drafted (name :: given) name b = some b := by simp [drafted]

@[simp] theorem isSome_drafted : (drafted given name b).isSome = true ↔ name ∈ given := by
  simp [drafted]

theorem drafted_cons_of_ne {key : String} (h : name ≠ key) :
    drafted (key :: given) name b = drafted given name b := by
  simp [drafted, h]

theorem getD_drafted {usual : β} (h : name ∈ given ∨ b = usual) :
    (drafted given name b).getD usual = b := by
  rw [drafted]
  split
  · rfl
  · next hmissing => exact (h.resolve_left hmissing).symm

end drafted

variable {σ : Type} {part : List String → σ}

/-- A member is read into drafts that are known from the keys that were given. -/
structure Member.Serves (part : List String → σ) (member : Member σ) (entry : Entry) : Prop where
  /-- It has the key of the entry. -/
  name_eq : member.name = entry.name
  /-- It may be missing when the entry can be left out. -/
  optional : entry.omissible → member.optional = true
  /-- It counts as read when its key was given. -/
  isSet_iff : ∀ given, member.isSet (part given) = true ↔ entry.name ∈ given
  /-- It reads the values of the entry, and gives its key. -/
  reads : ∀ given value, entry.admits value →
    Reads (member.read (part given)) value (part (entry.name :: given))

/-- A member that reads a value and keeps it serves an entry with this value. -/
theorem Member.serves_of_reads {β : Type} {member : Member σ} {entry : Entry} {read : Reader β}
    {set : σ → β → σ} {b : β} (name_eq : member.name = entry.name)
    (optional : entry.omissible → member.optional = true)
    (isSet_iff : ∀ given, member.isSet (part given) = true ↔ entry.name ∈ given)
    (read_eq : ∀ draft, member.read draft = read >>= fun b => pure (set draft b))
    (set_eq : ∀ given, set (part given) b = part (entry.name :: given))
    (reads : ∀ value, entry.admits value → Reads read value b) : member.Serves part entry where
  name_eq := name_eq
  optional := optional
  isSet_iff := isSet_iff
  reads given value hvalue := by
    rw [read_eq]
    exact (reads value hvalue).bind_pure (set_eq given)

/-- A layout reads the members of a structure into drafts that are known from the keys that were
given. -/
structure Layout.Serves (layout : Layout σ) (entries : List Entry) (part : List String → σ) :
    Prop where
  /-- There are no two members with one key. -/
  nodup : (layout.members.map Member.name).Nodup
  /-- Its members are those of the entries. -/
  serves : List.Forall₂ (Member.Serves part) layout.members entries

/-- What is in one of two lists has a partner in the other one. -/
theorem exists_of_forall₂ {β γ : Type} {R : β → γ → Prop} {bs : List β} {cs : List γ}
    (h : List.Forall₂ R bs cs) {b : β} (hm : b ∈ bs) : ∃ c ∈ cs, R b c := by
  induction h with
  | nil => exact absurd hm List.not_mem_nil
  | cons hfirst hrest ih =>
    rcases List.mem_cons.mp hm with rfl | hm
    · exact ⟨_, List.mem_cons_self, hfirst⟩
    · obtain ⟨c, hc, hR⟩ := ih hm
      exact ⟨c, List.mem_cons_of_mem _ hc, hR⟩

/-- A key leads to the member of its entry. -/
theorem exists_find?_of_serves {members : List (Member σ)} {entries : List Entry}
    (h : List.Forall₂ (Member.Serves part) members entries)
    (nodup : (members.map Member.name).Nodup) {entry : Entry} (hm : entry ∈ entries) :
    ∃ member, members.find? (fun member => member.name == entry.name) = some member ∧
      member.Serves part entry := by
  induction h with
  | nil => exact absurd hm List.not_mem_nil
  | @cons member first members entries hfirst hrest ih =>
    rw [List.map_cons, List.nodup_cons] at nodup
    rcases List.mem_cons.mp hm with rfl | hm
    · exact ⟨member, by simp [hfirst.name_eq], hfirst⟩
    · obtain ⟨found, hfind, hserves⟩ := ih nodup.2 hm
      refine ⟨found, ?_, hserves⟩
      -- a member further on has another key than the first one
      have hne : member.name ≠ entry.name := by
        intro heq
        rw [← hserves.name_eq] at heq
        exact nodup.1 (heq ▸ List.mem_map_of_mem (List.mem_of_find?_eq_some hfind))
      simpa [hne] using hfind

namespace Layout

variable {layout : Layout σ} {entries : List Entry}

open Reader

theorem readMember_spelled (h : layout.Serves entries part) {entry : Entry} (hm : entry ∈ entries)
    {given : List String} (hnew : entry.name ∉ given) {value : Json} (hvalue : entry.admits value)
    {blanks written rest : List Char} (blank : Blank blanks) (spelled : Spells written value)
    (hends : Ends rest) :
    layout.readMember entry.name (part given) (blanks ++ ':' :: (written ++ rest)) =
      .ok (part (entry.name :: given), rest) := by
  obtain ⟨member, hfind, hserves⟩ := exists_find?_of_serves h.serves h.nodup hm
  have hset : ¬ member.isSet (part given) = true := fun hset => hnew ((hserves.isSet_iff _).mp hset)
  rw [readMember, hfind]
  simp only [hset, if_false, Bool.false_eq_true]
  rw [bind_eq (colon_eq blank _)]
  exact hserves.reads given value hvalue written rest spelled hends

/-- The members of an object are read in any order. -/
theorem readMembers_spelled (h : layout.Serves entries part) {isFirst : Bool} {chars : List Char}
    {members : List (String × Json)} (spelled : SpellsMembers isFirst chars members)
    (admitted : ∀ member ∈ members, ∃ entry ∈ entries,
      entry.name = member.1 ∧ entry.admits member.2)
    (given : List String) (once : (members.map Prod.fst ++ given).Nodup) {fuel : Nat}
    (hfuel : members.length < fuel) (rest : List Char) :
    layout.readMembers fuel isFirst (part given) (chars ++ rest) =
      .ok (part ((members.map Prod.fst).reverse ++ given), '\x7d' :: rest) := by
  -- Induction on the members, with the keys of those before them among the given ones.
  induction members generalizing isFirst chars given fuel with
  | nil =>
    obtain ⟨fuel, rfl⟩ := Nat.exists_eq_add_one_of_ne_zero (Nat.ne_zero_of_lt hfuel)
    obtain ⟨blank⟩ | _ := spelled
    rw [List.append_assoc, readMembers]
    exact bind_eq (nextKey_close isFirst blank rest) _
  | cons member members ih =>
    obtain ⟨fuel, rfl⟩ := Nat.exists_eq_add_one_of_ne_zero (Nat.ne_zero_of_lt hfuel)
    obtain _ | ⟨separates, keySpelled, blank, spelled, others⟩ := spelled
    obtain ⟨⟨entry, hm, rfl, hvalue⟩, hadmitted⟩ := List.forall_mem_cons.mp admitted
    rw [List.map_cons, List.cons_append] at once
    have hnew : entry.name ∉ given :=
      fun hgiven => (List.nodup_cons.mp once).1 (List.mem_append_right _ hgiven)
    have hrest := ih others hadmitted _ (List.nodup_middle.mpr once) (Nat.lt_of_succ_lt_succ hfuel)
    have hread := readMember_spelled h hm hnew hvalue blank spelled (others.ends rest)
    simp only [List.append_assoc, List.cons_append]
    rw [readMembers, bind_eq (nextKey_spelled separates keySpelled _)]
    simp only [bind_eq hread, hrest]
    simp

theorem checkMembers_of_complete (h : layout.Serves entries part) {given : List String}
    (complete : Complete entries given) (chars : List Char) :
    layout.checkMembers (part given) chars = .ok ((), chars) := by
  have hfind : layout.members.find? (fun member => !member.optional && !member.isSet (part given))
      = none := by
    rw [List.find?_eq_none]
    intro member hm
    obtain ⟨entry, hentry, hserves⟩ := exists_of_forall₂ h.serves hm
    rcases complete entry hentry with hgiven | homissible
    · simp [(hserves.isSet_iff given).mpr hgiven]
    · simp [hserves.optional homissible]
  rw [checkMembers, hfind]
  rfl

/-- The elements of an array are read as the first members, if the others can be left out. -/
theorem readElements_spelled (layout : Layout σ) {front back : List Entry}
    {members : List (Member σ)} (h : List.Forall₂ (Member.Serves part) members (front ++ back))
    {items : List Json} (admitted : List.Forall₂ Entry.admits front items)
    (omitted : ∀ entry ∈ back, entry.omissible) (position : Nat) {chars : List Char}
    (spelled : SpellsItems (position == 0) chars items) (given : List String)
    (rest : List Char) :
    ∃ blanks, Blank blanks ∧
      layout.readElements position members (part given) (chars ++ rest) =
        .ok (part ((front.map Entry.name).reverse ++ given), blanks ++ ']' :: rest) := by
  -- Induction on the members that are written, which are the first ones.
  induction admitted generalizing members position chars given with
  | nil =>
    obtain @⟨_, blanks, blank⟩ | _ := spelled
    rw [List.append_assoc]
    cases h with
    | nil =>
      -- behind the last member nothing is looked at any more
      exact ⟨blanks, blank, rfl⟩
    | cons hserves hrest =>
      have hoptional := hserves.optional (omitted _ List.mem_cons_self)
      refine ⟨[], blank_nil, ?_⟩
      rw [readElements, List.singleton_append, bind_eq (nextElement_close _ blank rest)]
      simp [hoptional, pure_eq]
  | @cons entry item front items hvalue hitems ih =>
    obtain _ | ⟨separates, spelled, others⟩ := spelled
    obtain _ | ⟨hserves, hrest⟩ := h
    obtain ⟨trimmed, hspelled, hnext⟩ := nextElement_spelled separates spelled
    obtain ⟨blanks, blank, hread⟩ := ih hrest (position + 1) others (entry.name :: given)
    refine ⟨blanks, blank, ?_⟩
    rw [List.append_assoc, List.append_assoc, readElements, bind_eq (hnext _), if_pos rfl,
      bind_eq (hserves.reads given item hvalue trimmed _ hspelled (others.ends rest)), hread]
    simp

/-- A structure is read however it is laid out. -/
theorem Serves.reads (h : layout.Serves entries part) {value : Json}
    (hvalue : LaidOut entries value) :
    ∃ given, Complete entries given ∧ Reads (layout.read (part [])) value (part given) := by
  cases hvalue with
  | @object members once admitted complete =>
    have hcomplete : Complete entries ((members.map Prod.fst).reverse ++ []) := by
      simpa [Complete] using complete
    refine ⟨_, hcomplete, ?_⟩
    rintro chars rest (_ | _ | _ | _ | @⟨blanks, written, _, blank, spelled⟩) -
    have hfuel : members.length < (written ++ rest).length + 1 := by
      have := spelled.length_lt
      rw [List.length_append]
      omega
    have hread := readMembers_spelled h spelled admitted [] (by simpa using once) hfuel rest
    rw [List.append_assoc, List.cons_append, read, bind_eq (peekValue_eq blank rfl _)]
    simp only [bind_eq (eat_cons _ _), bind_eq (get_eq _), bind_eq hread,
      bind_eq (checkMembers_of_complete h hcomplete _), pure_eq]
  | @array front back items declared admitted omitted =>
    subst declared
    have hcomplete : Complete (front ++ back) ((front.map Entry.name).reverse ++ []) := by
      intro entry hm
      rcases List.mem_append.mp hm with hfront | hback
      · exact .inl (by simpa using ⟨entry, hfront, rfl⟩)
      · exact .inr (omitted entry hback)
    refine ⟨_, hcomplete, ?_⟩
    rintro chars rest (_ | _ | _ | @⟨blanks, written, _, blank, spelled⟩) -
    obtain ⟨blanks', blank', hread⟩ := readElements_spelled layout h.serves admitted omitted 0
      spelled [] rest
    rw [List.append_assoc, List.cons_append, read, bind_eq (peekValue_eq blank rfl _)]
    simp only [bind_eq (eat_cons _ _), bind_eq hread, bind_eq (closeArray_eq blank' rest), pure_eq]

end Layout

end RecordCipher
