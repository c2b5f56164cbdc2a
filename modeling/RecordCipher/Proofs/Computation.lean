import Mathlib.Data.Option.Basic
import Mathlib.Tactic.Choose

/-!
# Computations

What can be said of computations that can fail, and of computations in any monad, without
knowing what else they do.

## Main definitions

* `verdict`: whether a computation succeeds, and how it fails if it does not
* `Follows`: a computation succeeds and fails as another one does, but for some failures
* `SameCourse`: two computations fail with the same failure, or come to related values
* `Always`: whatever value a computation comes to has a property

## Main results

* `bind_eq_ok_iff`, `map_eq_ok_iff`, `mapError_eq_ok_iff`: when computations that can fail
  succeed
* `bind_eq_error_iff`, `map_eq_error_iff`, `mapError_eq_error_iff`: when they fail
* `eq_map_of_verdict`: a computation that comes to one value is known by its verdict
* `Always.pure`, `Always.bind`: properties of the values of composed computations
-/

namespace RecordCipher

/-! ## Computations that can fail -/

section

variable {ε ε' β γ : Type}

theorem bind_eq_ok_iff {x : Except ε β} {f : β → Except ε γ} {c : γ} :
    x >>= f = .ok c ↔ ∃ b, x = .ok b ∧ f b = .ok c := by
  cases x <;> simp [bind, Except.bind]

/-- A computation in two parts fails in the first one, or in the second one. -/
theorem bind_eq_error_iff {x : Except ε β} {f : β → Except ε γ} {e : ε} :
    x >>= f = .error e ↔ x = .error e ∨ ∃ b, x = .ok b ∧ f b = .error e := by
  cases x <;> simp [bind, Except.bind]

/-- Of a check it only matters that it succeeds. -/
theorem check_bind_eq_ok_iff {x : Except ε Unit} {f : Unit → Except ε γ} {c : γ} :
    x >>= f = .ok c ↔ x = .ok () ∧ f () = .ok c := by
  cases x <;> simp [bind, Except.bind]

theorem map_eq_ok_iff {x : Except ε β} {f : β → γ} {c : γ} :
    x.map f = .ok c ↔ ∃ b, x = .ok b ∧ f b = c := by
  cases x <;> simp [Except.map]

theorem map_eq_error_iff {x : Except ε β} {f : β → γ} {e : ε} :
    x.map f = .error e ↔ x = .error e := by
  cases x <;> simp [Except.map]

theorem mapError_eq_ok_iff {x : Except ε β} {f : ε → ε'} {b : β} :
    x.mapError f = .ok b ↔ x = .ok b := by
  cases x <;> simp [Except.mapError]

theorem mapError_eq_error_iff {x : Except ε β} {f : ε → ε'} {e' : ε'} :
    x.mapError f = .error e' ↔ ∃ e, x = .error e ∧ f e = e' := by
  cases x <;> simp [Except.mapError]

/-- Whether a computation succeeds, and how it fails if it does not. -/
def verdict (x : Except ε β) : Except ε Unit := x.map fun _ => ()

@[simp] theorem verdict_ok (b : β) : verdict (.ok b : Except ε β) = .ok () := rfl

@[simp] theorem verdict_error (e : ε) : verdict (.error e : Except ε β) = .error e := rfl

@[simp] theorem verdict_map (x : Except ε β) (f : β → γ) : verdict (x.map f) = verdict x := by
  cases x <;> rfl

@[simp] theorem verdict_bind (x : Except ε β) (f : β → Except ε γ) :
    verdict (x >>= f) = x >>= fun b => verdict (f b) := by
  cases x <;> rfl

theorem verdict_bind_pure (x : Except ε β) (f : β → γ) :
    verdict (x >>= fun b => pure (f b)) = verdict x := by
  cases x <;> rfl

/-- What does not look at a value goes on after a verdict. -/
theorem bind_const (x : Except ε β) (y : Except ε γ) :
    (x >>= fun _ => y) = verdict x >>= fun _ => y := by
  cases x <;> rfl

theorem verdict_eq_ok_iff {x : Except ε β} : verdict x = .ok () ↔ ∃ b, x = .ok b := by
  cases x <;> simp

theorem verdict_eq_error_iff {x : Except ε β} {e : ε} :
    verdict x = .error e ↔ x = .error e := by
  cases x <;> simp

/-- A computation that can only come to one value is known by its verdict. -/
theorem eq_map_of_verdict {x : Except ε γ} {y : Except ε β} {c : γ} (h : verdict x = verdict y)
    (hx : ∀ c', x = .ok c' → c' = c) : x = y.map fun _ => c := by
  cases x with
  | ok c' =>
    obtain ⟨b, rfl⟩ := verdict_eq_ok_iff.mp h.symm
    rw [hx c' rfl]
    rfl
  | error e =>
    obtain rfl := verdict_eq_error_iff.mp h.symm
    rfl

theorem forM_congr {f g : β → Except ε Unit} {l : List β} (h : ∀ b ∈ l, f b = g b) :
    forM l f = forM l g := by
  induction l with
  | nil => rfl
  | cons b l ih =>
    obtain ⟨hb, hl⟩ := List.forall_mem_cons.mp h
    rw [List.forM_cons, List.forM_cons, hb, ih hl]

/-- Checks succeed when each of them does. -/
theorem forM_eq_ok {f : β → Except ε Unit} {l : List β} (h : ∀ b ∈ l, f b = .ok ()) :
    forM l f = .ok () := by
  induction l with
  | nil => rfl
  | cons b l ih =>
    obtain ⟨hb, hl⟩ := List.forall_mem_cons.mp h
    rw [List.forM_cons, hb]
    exact ih hl

/-- A computation succeeds when another one does, and fails as that one does unless the failure
is excused. -/
structure Follows (excused : ε → Prop) (x : Except ε β) (y : Except ε γ) : Prop where
  ok : ∀ b, x = .ok b → ∃ c, y = .ok c
  error : ∀ e, ¬ excused e → x = .error e → y = .error e

section Follows

variable {excused : ε → Prop} {x : Except ε β} {y : Except ε γ}

theorem follows_verdict_iff : Follows excused (verdict x) (verdict y) ↔ Follows excused x y := by
  constructor
  · intro h
    refine ⟨fun b hb => ?_, fun e hexcused he => ?_⟩
    · obtain ⟨⟨⟩, hy⟩ := h.ok () (verdict_eq_ok_iff.mpr ⟨b, hb⟩)
      exact verdict_eq_ok_iff.mp hy
    · exact verdict_eq_error_iff.mp (h.error e hexcused (verdict_eq_error_iff.mpr he))
  · intro h
    refine ⟨fun _ hb => ?_, fun e hexcused he => ?_⟩
    · obtain ⟨b, hb⟩ := verdict_eq_ok_iff.mp hb
      obtain ⟨c, hc⟩ := h.ok b hb
      exact ⟨(), verdict_eq_ok_iff.mpr ⟨c, hc⟩⟩
    · exact verdict_eq_error_iff.mpr (h.error e hexcused (verdict_eq_error_iff.mp he))

theorem Follows.refl (excused : ε → Prop) (x : Except ε β) : Follows excused x x where
  ok b hb := ⟨b, hb⟩
  error _ _ he := he

theorem Follows.of_verdict_eq (h : verdict y = verdict x) : Follows excused x y := by
  rw [← follows_verdict_iff, h]
  exact .refl _ _

/-- Checks follow others when each of them follows another. -/
theorem Follows.forM {f g : β → Except ε Unit} {l : List β}
    (h : ∀ b ∈ l, Follows excused (f b) (g b)) : Follows excused (forM l f) (forM l g) := by
  induction l with
  | nil => exact .refl _ _
  | cons b l ih =>
    obtain ⟨hb, hl⟩ := List.forall_mem_cons.mp h
    rw [List.forM_cons, List.forM_cons]
    cases hf : f b with
    | error e =>
      refine ⟨nofun, ?_⟩
      rintro _ hexcused ⟨⟩
      rw [hb.error e hexcused hf]
      rfl
    | ok =>
      obtain ⟨⟨⟩, hg⟩ := hb.ok _ hf
      rw [hg]
      exact ih hl

end Follows

/-- Two computations take the same course: they fail with the same failure, or come to values
that are related. -/
inductive SameCourse (R : β → γ → Prop) : Except ε β → Except ε γ → Prop where
  /-- Both fail. -/
  | error (e : ε) : SameCourse R (.error e) (.error e)
  /-- Both succeed. -/
  | ok {b : β} {c : γ} (related : R b c) : SameCourse R (.ok b) (.ok c)

namespace SameCourse

variable {R : β → γ → Prop} {x : Except ε β} {y : Except ε γ} {β' γ' : Type}
  {R' : β' → γ' → Prop}

theorem bind {f : β → Except ε β'} {g : γ → Except ε γ'} (h : SameCourse R x y)
    (hf : ∀ b c, x = .ok b → R b c → SameCourse R' (f b) (g c)) :
    SameCourse R' (x >>= f) (y >>= g) := by
  cases h with
  | error e => exact .error e
  | ok related => exact hf _ _ rfl related

theorem map {f : β → β'} {g : γ → γ'} (h : SameCourse R x y)
    (hf : ∀ b c, x = .ok b → y = .ok c → R b c → R' (f b) (g c)) :
    SameCourse R' (x.map f) (y.map g) := by
  cases h with
  | error e => exact .error e
  | ok related => exact .ok (hf _ _ rfl rfl related)

theorem mapError (h : SameCourse R x y) (f : ε → ε') :
    SameCourse R (x.mapError f) (y.mapError f) := by
  cases h with
  | error e => exact .error (f e)
  | ok related => exact .ok related

theorem mono {R' : β → γ → Prop} (h : SameCourse R x y)
    (hR : ∀ b c, x = .ok b → y = .ok c → R b c → R' b c) : SameCourse R' x y := by
  cases h with
  | error e => exact .error e
  | ok related => exact .ok (hR _ _ rfl rfl related)

theorem of_verdict (h : verdict x = verdict y) (hR : ∀ b c, x = .ok b → y = .ok c → R b c) :
    SameCourse R x y := by
  cases x <;> cases y <;>
    simp only [verdict_ok, verdict_error, reduceCtorEq, Except.error.injEq] at h
  · rw [h]
    exact .error _
  · exact .ok (hR _ _ rfl rfl)

theorem verdict_eq (h : SameCourse R x y) : verdict x = verdict y := by
  cases h <;> rfl

/-- Computations that come to equal values are the same. -/
theorem eq {y : Except ε β} (h : SameCourse Eq x y) : x = y := by
  cases h with
  | error e => rfl
  | ok related => rw [related]

end SameCourse

end

/-! ## Computations in a monad -/

/-- Whatever value a computation comes to has a property: it could as well be a computation of
values together with proofs of it. -/
def Always {m : Type → Type} [Monad m] {β : Type} (P : β → Prop) (x : m β) : Prop :=
  ∃ proved : m {b // P b}, x = Subtype.val <$> proved

section Always

variable {m : Type → Type} [Monad m] [LawfulMonad m] {β γ : Type} {P : β → Prop} {Q : γ → Prop}

theorem Always.pure {b : β} (h : P b) : Always P (Pure.pure b : m β) :=
  ⟨Pure.pure ⟨b, h⟩, by simp⟩

/-- Nothing is known of a computation. -/
theorem Always.trivial (x : m β) : Always (fun _ => True) x :=
  ⟨(⟨·, True.intro⟩) <$> x, by simp⟩

theorem Always.mono {x : m β} {P' : β → Prop} (hx : Always P x) (h : ∀ b, P b → P' b) :
    Always P' x := by
  obtain ⟨proved, rfl⟩ := hx
  exact ⟨(fun b => ⟨b.1, h b.1 b.2⟩) <$> proved, by simp⟩

theorem Always.bind {x : m β} {f : β → m γ} (hx : Always P x) (hf : ∀ b, P b → Always Q (f b)) :
    Always Q (x >>= f) := by
  obtain ⟨proved, rfl⟩ := hx
  choose others hothers using hf
  refine ⟨proved >>= fun b => others b.1 b.2, ?_⟩
  rw [map_bind, bind_map_left]
  exact congrArg _ (funext fun b => hothers b.1 b.2)

end Always

end RecordCipher
