/-!
# Changes in place

A change works on something in place: it is made or it fails, and either way something is left.
What was done before a failure is not undone, so that what a failed change leaves has to be looked
at like what a change leaves that was made.

## Main definitions

* `Outcome`: what a change comes to, together with what it leaves
* `Outcome.left`: what is left, whether the change was made or not
* `Outcome.ofPart`: what a change of a part comes to for the whole
-/

namespace RecordCipher

/-- What a change comes to: it was made, or it failed with an error. Both come with what the change
leaves. -/
abbrev Outcome (ε σ : Type) := EStateM.Result ε σ Unit

namespace Outcome

variable {ε ε' σ τ β : Type}

/-- What is left, whether the change was made or not. -/
def left : EStateM.Result ε σ β → σ
  | .ok _ left => left
  | .error _ left => left

/-- What a change of a part comes to for the whole that the part is in. -/
def ofPart (fail : ε → ε') (whole : σ → τ) : Outcome ε σ → Outcome ε' τ
  | .ok () part => .ok () (whole part)
  | .error e part => .error (fail e) (whole part)

/-- What a change makes of a copy, which is given up when the change fails. -/
def ofCopy : Outcome ε σ → Except ε σ
  | .ok () copy => .ok copy
  | .error e _ => .error e

/-- Where it does not matter what a failure leaves, a change is one of a copy. -/
instance : CoeOut (Outcome ε σ) (Except ε σ) := ⟨ofCopy⟩

@[simp] theorem ofCopy_eq_ok_iff {change : Outcome ε σ} {copy : σ} :
    change.ofCopy = .ok copy ↔ change = .ok () copy := by
  cases change <;> simp [ofCopy]

@[simp] theorem ofCopy_eq_error_iff {change : Outcome ε σ} {e : ε} :
    change.ofCopy = .error e ↔ ∃ left, change = .error e left := by
  cases change <;> simp [ofCopy]

theorem ofPart_eq_ok {fail : ε → ε'} {whole : σ → τ} {part : Outcome ε σ} {changed : τ}
    (h : part.ofPart fail whole = .ok () changed) :
    ∃ left, part = .ok () left ∧ changed = whole left := by
  cases part with
  | ok _ left =>
    cases h
    exact ⟨left, rfl, rfl⟩
  | error e left => cases h

theorem ofPart_eq_error {fail : ε → ε'} {whole : σ → τ} {part : Outcome ε σ} {e : ε'} {left : τ}
    (h : part.ofPart fail whole = .error e left) :
    ∃ e' left', part = .error e' left' ∧ e = fail e' ∧ left = whole left' := by
  cases part with
  | ok _ left => cases h
  | error e' left' =>
    cases h
    exact ⟨e', left', rfl, rfl, rfl⟩

end Outcome

/-- A check in a change goes on, or fails with what there is by then. -/
theorem run_ofExcept {ε σ β : Type} (check : Except ε β) (s : σ) :
    (ofExcept check : EStateM ε σ β).run s =
      match check with
      | .ok b => .ok b s
      | .error e => .error e s := by
  cases check <;> rfl

end RecordCipher
