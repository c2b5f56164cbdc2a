import Mathlib.Data.List.Sort
import RecordCipher.Data.SortedMap

/-!
# Looking up in finite maps

A finite map is determined by what it has for each key. Adding an entry changes the value of
its key only, and a map that is built from a list of entries without conflicts has exactly
these entries, in whatever order the list has them.

## Main results

* `SortedMap.get?_insert`: adding an entry changes the value of its key only
* `SortedMap.ext`: two maps with the same values for all keys are equal
* `SortedMap.get?_ofList`: the values of a map that is built from entries without conflicts
* `SortedMap.get?_mapValues`, `SortedMap.ofList_map`: applying a function to every value
  changes no key
* `SortedMap.get?_overriddenBy`: the values of a map with those of another one over them
-/

namespace RecordCipher

variable {κ : Type} {ν : Type} [Ord κ] [Std.LawfulEqOrd κ]

/-! ## Entries in key order -/

/-- The first entry of a key, after an entry was added. -/
theorem find?_insertEntry (key : κ) (value : ν) (entries : List (κ × ν)) (k : κ) :
    (insertEntry key value entries).find? (fun entry => compare k entry.1 == .eq) =
      if compare k key = .eq then some (key, value)
      else entries.find? (fun entry => compare k entry.1 == .eq) := by
  induction entries with
  | nil => by_cases h : compare k key = .eq <;> simp [insertEntry, h]
  | cons head rest ih =>
    obtain ⟨k', v'⟩ := head
    simp only [insertEntry]
    split
    · by_cases h : compare k key = .eq <;> simp [h]
    · next heq =>
      obtain rfl := Std.LawfulEqCmp.eq_of_compare heq
      by_cases h : compare k key = .eq <;> simp [h]
    · next hgt =>
      by_cases h : compare k key = .eq
      · obtain rfl := Std.LawfulEqCmp.eq_of_compare h
        simp [hgt, ih]
      · simp [List.find?_cons, ih, h]

/-- In key order, the entry found for a key is its only one. -/
theorem InKeyOrder.find?_eq_some_iff {entries : List (κ × ν)} (h : InKeyOrder entries) (key : κ)
    (value : ν) :
    entries.find? (fun entry => compare key entry.1 == .eq) = some (key, value) ↔
      (key, value) ∈ entries := by
  unfold InKeyOrder at h
  induction entries with
  | nil => simp
  | cons head rest ih =>
    obtain ⟨k, v⟩ := head
    obtain ⟨first, others⟩ := List.pairwise_cons.mp h
    by_cases heq : compare key k = .eq
    · obtain rfl := Std.LawfulEqCmp.eq_of_compare heq
      have absent : (key, value) ∉ rest := fun hm => by simpa using first _ hm
      simp [eq_comm, absent]
    · have hne : key ≠ k := by
        rintro rfl
        exact heq Std.ReflCmp.compare_self
      simp [heq, hne, ih others]

/-- Lists in key order with the same entries are equal. -/
theorem InKeyOrder.ext [Std.TransOrd κ] {entries entries' : List (κ × ν)}
    (h : InKeyOrder entries) (h' : InKeyOrder entries')
    (same : ∀ entry, entry ∈ entries ↔ entry ∈ entries') : entries = entries' := by
  have irrefl : Std.Irrefl fun a b : κ × ν => compare a.1 b.1 = .lt := ⟨by simp⟩
  have antisymm : Std.Antisymm fun a b : κ × ν => compare a.1 b.1 = .lt :=
    ⟨fun a b hab hba => absurd (Std.TransCmp.lt_trans hab hba) (irrefl.irrefl a)⟩
  exact List.Pairwise.eq_of_mem_iff h h' same

namespace SortedMap

theorem get?_eq_some_iff (m : SortedMap κ ν) (key : κ) (value : ν) :
    m.get? key = some value ↔ (key, value) ∈ m.entries := by
  rw [← m.inOrder.find?_eq_some_iff key value]
  unfold get?
  rw [Option.map_eq_some_iff]
  constructor
  · rintro ⟨⟨k, v⟩, hfind, rfl⟩
    have heq : compare key k = .eq := by simpa using List.find?_some hfind
    obtain rfl := Std.LawfulEqCmp.eq_of_compare heq
    exact hfind
  · exact fun hfind => ⟨_, hfind, rfl⟩

/-- The entries of a map are different from each other. -/
theorem nodup_entries (m : SortedMap κ ν) : m.entries.Nodup := by
  refine m.inOrder.imp ?_
  rintro a b hlt rfl
  simp at hlt

theorem isEmpty_eq_false_of_get? {m : SortedMap κ ν} {key : κ} {value : ν}
    (h : m.get? key = some value) : m.isEmpty = false := by
  have hm := (get?_eq_some_iff m key value).mp h
  cases he : m.entries with
  | nil => simp [he] at hm
  | cons head rest => simp [isEmpty, he]

theorem get?_of_isEmpty {m : SortedMap κ ν} (h : m.isEmpty = true) (key : κ) :
    m.get? key = none := by
  cases hg : m.get? key with
  | none => rfl
  | some value => simp [isEmpty_eq_false_of_get? hg] at h

theorem isEmpty_iff (m : SortedMap κ ν) : m.isEmpty = true ↔ ∀ key, m.get? key = none := by
  constructor
  · exact get?_of_isEmpty
  · intro h
    cases hentries : m.entries with
    | nil => simp [isEmpty, hentries]
    | cons head rest =>
      have hget := (get?_eq_some_iff m head.1 head.2).mpr (by simp [hentries])
      simp [h head.1] at hget

/-- The map with a function applied to every value. -/
def mapValues {ν' : Type} (f : ν → ν') (m : SortedMap κ ν) : SortedMap κ ν' where
  entries := m.entries.map fun entry => (entry.1, f entry.2)
  inOrder := by
    unfold InKeyOrder
    rw [List.pairwise_map]
    exact m.inOrder

theorem get?_mapValues {ν' : Type} (f : ν → ν') (m : SortedMap κ ν) (key : κ) :
    (m.mapValues f).get? key = (m.get? key).map f := by
  apply Option.ext
  intro value
  rw [get?_eq_some_iff, Option.map_eq_some_iff]
  simp only [mapValues, List.mem_map, Prod.mk.injEq, get?_eq_some_iff]
  constructor
  · rintro ⟨⟨k, v⟩, hm, rfl, rfl⟩
    exact ⟨v, hm, rfl⟩
  · rintro ⟨v, hm, rfl⟩
    exact ⟨(key, v), hm, rfl, rfl⟩

variable [Std.TransOrd κ]

omit [Std.LawfulEqOrd κ] [Std.TransOrd κ] in
theorem insertEntry_map {ν' : Type} (f : ν → ν') (key : κ) (value : ν)
    (entries : List (κ × ν)) :
    insertEntry key (f value) (entries.map fun entry => (entry.1, f entry.2)) =
      (insertEntry key value entries).map fun entry => (entry.1, f entry.2) := by
  induction entries with
  | nil => rfl
  | cons head rest ih =>
    obtain ⟨k, v⟩ := head
    simp only [List.map_cons, insertEntry]
    split <;> simp [ih]

omit [Std.LawfulEqOrd κ] in
/-- A function can be applied to the values before or after the map is built. -/
theorem ofList_map {ν' : Type} (f : ν → ν') (entries : List (κ × ν)) :
    ofList (entries.map fun entry => (entry.1, f entry.2)) = (ofList entries).mapValues f := by
  have insertAll_map : ∀ m : SortedMap κ ν,
      (m.mapValues f).insertAll (entries.map fun entry => (entry.1, f entry.2)) =
        (m.insertAll entries).mapValues f := by
    induction entries with
    | nil => exact fun m => rfl
    | cons head rest ih =>
      intro m
      have hinsert : (m.mapValues f).insert head.1 (f head.2) =
          (m.insert head.1 head.2).mapValues f := by
        unfold insert mapValues
        simp only [insertEntry_map]
      rw [List.map_cons, insertAll, List.foldl_cons, hinsert]
      exact ih _
  exact insertAll_map empty

/-- Two maps with the same values for all keys are equal. -/
theorem ext {m m' : SortedMap κ ν} (h : ∀ key, m.get? key = m'.get? key) : m = m' := by
  obtain ⟨entries, inOrder⟩ := m
  obtain ⟨entries', inOrder'⟩ := m'
  have same : ∀ entry, entry ∈ entries ↔ entry ∈ entries' := fun ⟨key, value⟩ => by
    have hm := get?_eq_some_iff ⟨entries, inOrder⟩ key value
    have hm' := get?_eq_some_iff ⟨entries', inOrder'⟩ key value
    rw [← hm, ← hm', h key]
  obtain rfl := inOrder.ext inOrder' same
  rfl

/-- Adding an entry changes the value of its key only. -/
theorem get?_insert [DecidableEq κ] (m : SortedMap κ ν) (key : κ) (value : ν) (k : κ) :
    (m.insert key value).get? k = if k = key then some value else m.get? k := by
  unfold get? insert
  rw [find?_insertEntry]
  by_cases h : k = key
  · simp [h]
  · have hne : compare k key ≠ .eq := fun heq => h (Std.LawfulEqCmp.eq_of_compare heq)
    simp [h, hne]

/-- A key has one of the values that were added for it, or else what it had before. -/
theorem get?_insertAll (m : SortedMap κ ν) (entries : List (κ × ν)) (key : κ) :
    (∃ value, (key, value) ∈ entries ∧ (m.insertAll entries).get? key = some value) ∨
      (∀ value, (key, value) ∉ entries) ∧ (m.insertAll entries).get? key = m.get? key := by
  classical
  -- Induction on the entries, for whatever map they are added to.
  induction entries generalizing m with
  | nil => exact .inr ⟨by simp, rfl⟩
  | cons head rest ih =>
    obtain ⟨k, v⟩ := head
    have step : m.insertAll ((k, v) :: rest) = (m.insert k v).insertAll rest := rfl
    rw [step]
    rcases ih (m.insert k v) with ⟨value, hm, hget⟩ | ⟨absent, hget⟩
    · -- a later entry decides
      exact .inl ⟨value, List.mem_cons_of_mem _ hm, hget⟩
    · -- no later entry has the key: the first one decides, or what was there before
      rw [hget, get?_insert]
      by_cases h : key = k
      · exact .inl ⟨v, by simp [h], by simp [h]⟩
      · exact .inr ⟨by simp [h, absent], by simp [h]⟩

theorem isEmpty_ofList (entries : List (κ × ν)) : (ofList entries).isEmpty = entries.isEmpty := by
  cases entries with
  | nil => rfl
  | cons head rest =>
    rcases get?_insertAll empty (head :: rest) head.1 with ⟨value, -, hget⟩ | ⟨absent, -⟩
    · -- the key of the first entry has a value
      exact isEmpty_eq_false_of_get? hget
    · exact absurd List.mem_cons_self (absent head.2)

/-- What a map holds is among the entries it was built from. -/
theorem mem_of_get?_ofList {entries : List (κ × ν)} {key : κ} {value : ν}
    (h : (ofList entries).get? key = some value) : (key, value) ∈ entries := by
  rcases get?_insertAll empty entries key with ⟨v, hm, hget⟩ | ⟨-, hget⟩
  · rw [ofList, hget, Option.some.injEq] at h
    exact h ▸ hm
  · rw [ofList, hget] at h
    cases h

/-- Entries that agree on the value of each key. -/
def Consistent (entries : List (κ × ν)) : Prop :=
  ∀ key a b, (key, a) ∈ entries → (key, b) ∈ entries → a = b

/-- The values of a map that is built from entries without conflicts. -/
theorem get?_ofList {entries : List (κ × ν)} (h : Consistent entries) (key : κ) (value : ν) :
    (ofList entries).get? key = some value ↔ (key, value) ∈ entries := by
  unfold ofList
  rcases get?_insertAll empty entries key with ⟨v, hm, hget⟩ | ⟨absent, hget⟩
  · rw [hget]
    constructor
    · rintro ⟨⟩
      exact hm
    · intro hm'
      rw [h key v value hm hm']
  · have none : (empty : SortedMap κ ν).get? key = none := rfl
    simp [hget, none, absent]

/-! ## One map over another -/

/-- The entries of two maps; where both have a key, the second one counts. -/
def overriddenBy (m m' : SortedMap κ ν) : SortedMap κ ν := m.insertAll m'.entries

theorem get?_overriddenBy (m m' : SortedMap κ ν) (key : κ) :
    (m.overriddenBy m').get? key = (m'.get? key).or (m.get? key) := by
  rw [overriddenBy]
  rcases get?_insertAll m m'.entries key with ⟨value, hm, hget⟩ | ⟨absent, hget⟩
  · rw [hget, (get?_eq_some_iff m' key value).mpr hm, Option.some_or]
  · have hnone : m'.get? key = none := by
      refine Option.eq_none_iff_forall_ne_some.mpr fun value hvalue => ?_
      exact absent value ((get?_eq_some_iff m' key value).mp hvalue)
    rw [hget, hnone, Option.none_or]

theorem isEmpty_overriddenBy (m m' : SortedMap κ ν) :
    (m.overriddenBy m').isEmpty = true ↔ m.isEmpty = true ∧ m'.isEmpty = true := by
  simp only [isEmpty_iff, get?_overriddenBy, Option.or_eq_none_iff, forall_and, and_comm]

theorem overriddenBy_eq_left {m m' : SortedMap κ ν} (h : m'.isEmpty = true) :
    m.overriddenBy m' = m := by
  refine ext fun key => ?_
  rw [get?_overriddenBy, get?_of_isEmpty h, Option.none_or]

theorem overriddenBy_eq_right {m m' : SortedMap κ ν} (h : m.isEmpty = true) :
    m.overriddenBy m' = m' := by
  refine ext fun key => ?_
  rw [get?_overriddenBy, get?_of_isEmpty h, Option.or_none]

end SortedMap

end RecordCipher
