/-!
# Finite maps in key order

A finite map is the list of its entries in strictly increasing order of their keys, so that
two maps with the same entries are the same map, whatever order they were built in.

## Main definitions

* `SortedMap`: a finite map
* `SortedMap.insert`, `SortedMap.get?`: adding an entry, and looking a key up
* `SortedMap.ofList`: the map of a list of entries, where later entries win
-/

namespace RecordCipher

variable {κ : Type} {ν : Type} [Ord κ]

/-- Entries in strictly increasing order of their keys. -/
def InKeyOrder (entries : List (κ × ν)) : Prop :=
  entries.Pairwise fun a b => compare a.1 b.1 = .lt

/-- Adds an entry in its place, or replaces the entry of the same key. -/
def insertEntry (key : κ) (value : ν) : List (κ × ν) → List (κ × ν)
  | [] => [(key, value)]
  | (k, v) :: rest =>
    match compare key k with
    | .lt => (key, value) :: (k, v) :: rest
    | .eq => (key, value) :: rest
    | .gt => (k, v) :: insertEntry key value rest

theorem mem_insertEntry {key : κ} {value : ν} {entries : List (κ × ν)} {entry : κ × ν}
    (h : entry ∈ insertEntry key value entries) : entry = (key, value) ∨ entry ∈ entries := by
  induction entries with
  | nil => simpa [insertEntry] using h
  | cons head rest ih =>
    obtain ⟨k, v⟩ := head
    simp only [insertEntry] at h
    split at h
    · simpa using h
    · rcases List.mem_cons.mp h with h | h
      · exact .inl h
      · exact .inr (List.mem_cons_of_mem _ h)
    · rcases List.mem_cons.mp h with h | h
      · exact .inr (h ▸ List.mem_cons_self)
      · rcases ih h with h | h
        · exact .inl h
        · exact .inr (List.mem_cons_of_mem _ h)

/-- Adding an entry keeps the order of keys. -/
theorem InKeyOrder.insertEntry [Std.TransOrd κ] {entries : List (κ × ν)}
    (h : InKeyOrder entries) (key : κ) (value : ν) :
    InKeyOrder (insertEntry key value entries) := by
  unfold InKeyOrder at h ⊢
  induction entries with
  | nil => simp [RecordCipher.insertEntry]
  | cons head rest ih =>
    obtain ⟨k, v⟩ := head
    obtain ⟨first, others⟩ := List.pairwise_cons.mp h
    simp only [RecordCipher.insertEntry]
    split
    · next hlt =>
      refine List.pairwise_cons.mpr ⟨fun entry hm => ?_, h⟩
      rcases List.mem_cons.mp hm with rfl | hm
      · exact hlt
      · exact Std.TransCmp.lt_trans hlt (first entry hm)
    · next heq =>
      exact List.pairwise_cons.mpr
        ⟨fun entry hm => Std.TransCmp.lt_of_eq_of_lt heq (first entry hm), others⟩
    · next hgt =>
      refine List.pairwise_cons.mpr ⟨fun entry hm => ?_, ih others⟩
      rcases mem_insertEntry hm with rfl | hm
      · exact Std.OrientedCmp.gt_iff_lt.mp hgt
      · exact first entry hm

/-- A finite map. -/
structure SortedMap (κ : Type) (ν : Type) [Ord κ] where
  /-- The entries, one for each key. -/
  entries : List (κ × ν)
  /-- The entries are in increasing order of their keys. -/
  inOrder : InKeyOrder entries

namespace SortedMap

/-- The map without entries. -/
def empty : SortedMap κ ν := ⟨[], .nil⟩

/-- The value of a key. -/
def get? (m : SortedMap κ ν) (key : κ) : Option ν :=
  (m.entries.find? fun entry => compare key entry.1 == .eq).map (·.2)

/-- Whether there are no entries. -/
def isEmpty (m : SortedMap κ ν) : Bool := m.entries.isEmpty

/-- The number of entries. -/
def size (m : SortedMap κ ν) : Nat := m.entries.length

/-- The keys in increasing order. -/
def keys (m : SortedMap κ ν) : List κ := m.entries.map (·.1)

/-- The values in the order of their keys. -/
def values (m : SortedMap κ ν) : List ν := m.entries.map (·.2)

variable [Std.TransOrd κ]

/-- Adds an entry, or replaces the entry of the same key. -/
def insert (m : SortedMap κ ν) (key : κ) (value : ν) : SortedMap κ ν :=
  ⟨insertEntry key value m.entries, m.inOrder.insertEntry key value⟩

/-- Adds entries one after another. -/
def insertAll (m : SortedMap κ ν) (entries : List (κ × ν)) : SortedMap κ ν :=
  entries.foldl (fun m entry => m.insert entry.1 entry.2) m

/-- The map of a list of entries; of several entries with one key the last one counts. -/
def ofList (entries : List (κ × ν)) : SortedMap κ ν :=
  empty.insertAll entries

end SortedMap

end RecordCipher
