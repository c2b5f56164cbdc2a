import RecordCipher.Proofs.Plan.Typing

/-!
# Overwriting elements

An array has no schema of its own, and a replacement for one of its elements is compared with
the element that stands there: by its type and, for records, by its schema. If the array conforms
to a schema, this tells all that the schema asks of an element, unless the elements are arrays
themselves. An array takes the place of any other one, whatever its items are.

## Main results

* `Schema.Admits.of_checkReplacement`: what can take the place of an element that is no array
* `Schema.validate_setElement`: when an array conforms after an element is overwritten
-/

namespace RecordCipher

namespace Datum

/-- An array takes the place of any other array. -/
theorem setElement_of_array {items current : List Datum} {i : Nat}
    (h : items[i]? = some (array current)) (others : List Datum) :
    setElement (array items) i (array others) = .ok () (array (items.set i (array others))) := by
  have check : checkReplacement (array current) (array others) = .ok () :=
    (checkReplacement_eq_ok_iff _ _).mpr ⟨rfl, rfl⟩
  exact setElement_of_check h check

end Datum

namespace Schema

variable {traits : Traits} {element : Schema} {items : List Datum} {i : Nat} {value out : Datum}

/-- A schema of anything but arrays admits what can take the place of an element it admits. -/
theorem Admits.of_checkReplacement {current : Datum} (hcurrent : element.Admits current)
    (flat : element.type ≠ .array) (wellFormed : value.WellFormed)
    (check : Datum.checkReplacement current value = .ok ()) : element.Admits value := by
  obtain ⟨htype, hschema⟩ := (Datum.checkReplacement_eq_ok_iff current value).mp check
  refine (Datum.supplants_of_type_eq wellFormed htype hschema ?_).admits element hcurrent
  cases value with
  | scalar value => rfl
  | struct schema slots => rfl
  | array others =>
    -- The replacement has the type of the element, which the schema says is no array.
    cases hcurrent with
    | scalar => simp [Datum.type] at htype
    | array => exact absurd rfl flat
    | struct => simp [Datum.type] at htype

/-- An array conforms with an element overwritten when the replacement does. -/
theorem validate_set_iff (conforms : (array traits element).validate (.array items) = .ok ())
    (hi : i < items.length) :
    (array traits element).validate (.array (items.set i value)) = .ok () ↔
      element.validate value = .ok () := by
  rw [validate_eq_ok_iff, admits_array_iff] at conforms
  rw [validate_eq_ok_iff, admits_array_iff, validate_eq_ok_iff]
  constructor
  · intro h
    exact h value (List.mem_set hi value)
  · intro hvalue item hitem
    rcases List.mem_or_eq_of_mem_set hitem with hitem | rfl
    · exact conforms item hitem
    · exact hvalue

/-- An array of anything but arrays conforms with an element overwritten. -/
theorem validate_set_of_flat (conforms : (array traits element).validate (.array items) = .ok ())
    (flat : element.type ≠ .array) (wellFormed : value.WellFormed) {current : Datum}
    (hcurrent : items[i]? = some current)
    (check : Datum.checkReplacement current value = .ok ()) :
    (array traits element).validate (.array (items.set i value)) = .ok () := by
  have hi := (List.getElem?_eq_some_iff.mp hcurrent).1
  rw [validate_set_iff conforms hi, validate_eq_ok_iff]
  rw [validate_eq_ok_iff, admits_array_iff] at conforms
  exact (conforms current (List.mem_of_getElem? hcurrent)).of_checkReplacement flat wellFormed check

/-- Let an element of an array that conforms to a schema be overwritten. The array still conforms
if and only if the replacement is what the schema asks of an element. It is unless the elements
are arrays themselves. Then the replacement is an array too, and it is left open whether its
items are what the schema asks of them. -/
theorem validate_setElement (conforms : (array traits element).validate (.array items) = .ok ())
    (wellFormed : value.WellFormed) (h : Datum.setElement (.array items) i value = .ok () out) :
    out = .array (items.set i value) ∧
    ((array traits element).validate out = .ok () ↔ element.validate value = .ok ()) ∧
    (element.type ≠ .array → (array traits element).validate out = .ok ()) ∧
    ∀ traits' inner, element = .array traits' inner → ∃ others, value = .array others ∧
      ((array traits element).validate out = .ok () ↔
        ∀ other ∈ others, inner.validate other = .ok ()) := by
  obtain ⟨_, current, heq, hcurrent, check, rfl⟩ := Datum.setElement_eq_ok h
  obtain rfl := Datum.array.inj heq
  have hi := (List.getElem?_eq_some_iff.mp hcurrent).1
  refine ⟨rfl, validate_set_iff conforms hi,
    fun flat => validate_set_of_flat conforms flat wellFormed hcurrent check, ?_⟩
  rintro traits' inner rfl
  -- The element that is overwritten is an array, and so the replacement is one.
  have hadmits := (validate_eq_ok_iff _ _).mp conforms
  have harray := (admits_array_iff _ _ _).mp hadmits current (List.mem_of_getElem? hcurrent)
  have htype := ((Datum.checkReplacement_eq_ok_iff current value).mp check).1
  cases harray with
  | array admitted =>
    cases value with
    | scalar value => simp [Datum.type] at htype
    | struct schema slots => simp [Datum.type] at htype
    | array others =>
      refine ⟨others, rfl, ?_⟩
      rw [validate_set_iff conforms hi, validate_eq_ok_iff, admits_array_iff]
      exact forall₂_congr fun other _ => (validate_eq_ok_iff inner other).symm

/-- An array of numbers with one of them overwritten by another. -/
theorem validate_setElement_number :
    Datum.setElement (.array [.scalar (.int32 1), .scalar (.int32 2)]) 1 (.scalar (.int32 7)) =
      .ok () (.array [.scalar (.int32 1), .scalar (.int32 7)]) ∧
    (array {} (.scalar .int32 {})).validate
      (.array [.scalar (.int32 1), .scalar (.int32 7)]) = .ok () := by
  have conforms : (array {} (.scalar .int32 {})).validate
      (.array [.scalar (.int32 1), .scalar (.int32 2)]) = .ok () := rfl
  have hset : Datum.setElement (.array [.scalar (.int32 1), .scalar (.int32 2)]) 1
      (.scalar (.int32 7)) = .ok () (.array [.scalar (.int32 1), .scalar (.int32 7)]) := rfl
  exact ⟨hset, (validate_setElement conforms (.scalar _) hset).2.2.1 (by simp [type])⟩

/-- An array of arrays of numbers does not conform any more with one of them overwritten by an
array of texts. -/
theorem validate_setElement_array_of_arrays :
    (array {} (.array {} (.scalar .int32 {}))).validate
      (.array [.array [.scalar (.int32 1)]]) = .ok () ∧
    (Datum.array [.scalar (.string "x")]).WellFormed ∧
    Datum.setElement (.array [.array [.scalar (.int32 1)]]) 0 (.array [.scalar (.string "x")]) =
      .ok () (.array [.array [.scalar (.string "x")]]) ∧
    (array {} (.array {} (.scalar .int32 {}))).validate
      (.array [.array [.scalar (.string "x")]]) =
        .error (.element 0 (.element 0 (.type (.scalar .int32) (.scalar .string)))) := by
  refine ⟨rfl, by simp, ?_, rfl⟩
  exact Datum.setElement_of_array rfl _

end Schema

end RecordCipher
