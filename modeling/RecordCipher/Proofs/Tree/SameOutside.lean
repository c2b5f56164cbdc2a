import RecordCipher.Proofs.Computation
import RecordCipher.Proofs.Tree.Lawful

/-!
# Trees that are the same outside a location

Two trees can be the same but for what is at and below one location, which is hidden. Nodes at
one and the same location of both are then the same but for what is hidden below them. They have
the same head unless they are hidden themselves, so that they are of one kind and have as many
elements, and nothing tells them apart but a step to the hidden location. Putting such nodes into
such nodes keeps them so.

## Main definitions

* `SameOutside`: nodes that are the same but for what is hidden at and below them
* `SameItems`: the same for items of arrays, one by one

## Main results

* `SameOutside.child?`, `SameOutside.elements?`: one step below
* `SameOutside.replaced`, `SameOutside.putElements`: putting something one step below
* `SameOutside.eq`: nodes that nothing is hidden below are equal
-/

namespace RecordCipher

variable {α : Type} [Tree α] [LawfulTree α] {hidden here : Location}

/-- Two nodes at one location of two trees are the same but for what is at and below a hidden
location. -/
structure SameOutside (hidden here : Location) (x y : α) : Prop where
  sound_left : Sound x
  sound_right : Sound y
  headAt_eq : ∀ l, ¬ hidden <+: here ++ l → headAt l x = headAt l y

/-- Items of two arrays, from a position on, are the same one by one but for what is at and below
a hidden location. -/
inductive SameItems (hidden here : Location) : (i : Nat) → List α → List α → Prop where
  /-- There are no more items. -/
  | nil (i : Nat) : SameItems hidden here i [] []
  /-- One more item of each. -/
  | cons {i : Nat} {x y : α} {xs ys : List α} (first : SameOutside hidden (here.index i) x y)
    (rest : SameItems hidden here (i + 1) xs ys) : SameItems hidden here i (x :: xs) (y :: ys)

namespace SameItems

variable {i : Nat} {xs ys : List α}

theorem length_eq (h : SameItems hidden here i xs ys) : xs.length = ys.length := by
  induction h with
  | nil => rfl
  | cons _ _ ih => simp [ih]

theorem sound (h : SameItems hidden here i xs ys) :
    (∀ x ∈ xs, Sound x) ∧ ∀ y ∈ ys, Sound y := by
  induction h with
  | nil => simp
  | cons first _ ih =>
    simp only [List.forall_mem_cons]
    exact ⟨⟨first.sound_left, ih.1⟩, first.sound_right, ih.2⟩

theorem getElem? (h : SameItems hidden here i xs ys) {k : Nat} {x y : α} (hx : xs[k]? = some x)
    (hy : ys[k]? = some y) : SameOutside hidden (here.index (i + k)) x y := by
  -- Induction on the items, from whatever position they are counted.
  induction h generalizing k with
  | nil => simp at hx
  | @cons i _ _ _ _ first _ ih =>
    cases k with
    | zero =>
      obtain rfl := Option.some.inj hx
      obtain rfl := Option.some.inj hy
      exact first
    | succ k =>
      have shift : i + (k + 1) = i + 1 + k := by omega
      rw [shift]
      exact ih (by simpa using hx) (by simpa using hy)

theorem of_getElem? (hlength : xs.length = ys.length)
    (h : ∀ (k : Nat) (x y : α), xs[k]? = some x → ys[k]? = some y →
      SameOutside hidden (here.index (i + k)) x y) : SameItems hidden here i xs ys := by
  induction xs generalizing i ys with
  | nil =>
    obtain rfl := List.eq_nil_of_length_eq_zero hlength.symm
    exact .nil i
  | cons x xs ih =>
    cases ys with
    | nil => simp at hlength
    | cons y ys =>
      refine .cons (h 0 x y rfl rfl) (ih (by simpa using hlength) fun k x' y' hx hy => ?_)
      have shift : i + 1 + k = i + (k + 1) := by omega
      rw [shift]
      exact h (k + 1) x' y' (by simpa using hx) (by simpa using hy)

end SameItems

namespace SameOutside

variable {x y : α}

theorem refl (hidden here : Location) (hs : Sound x) : SameOutside hidden here x x :=
  ⟨hs, hs, fun _ _ => rfl⟩

/-- Nodes that nothing is hidden below are equal. -/
theorem eq (h : SameOutside hidden here x y) (hfree : ∀ l, ¬ hidden <+: here ++ l) : x = y :=
  LawfulTree.ext h.sound_left h.sound_right fun l => h.headAt_eq l (hfree l)

theorem head_eq (h : SameOutside hidden here x y) (hout : ¬ hidden <+: here) :
    head x = head y := by
  simpa using h.headAt_eq [] (by simpa using hout)

/-! ## One step below -/

theorem child {step : Location.Step} {x' y' : α} (h : SameOutside hidden here x y)
    (hx : Tree.child? x step = .ok (some x')) (hy : Tree.child? y step = .ok (some y')) :
    SameOutside hidden (here ++ [step]) x' y' where
  sound_left := LawfulTree.sound_child h.sound_left hx
  sound_right := LawfulTree.sound_child h.sound_right hy
  headAt_eq l hl := by
    have hheads := h.headAt_eq (step :: l) (by simpa using hl)
    rwa [headAt_cons, headAt_cons, hx, hy] at hheads

/-- A step that does not lead to the hidden location leads to the same. -/
theorem child? {step : Location.Step} (h : SameOutside hidden here x y)
    (hout : ¬ hidden <+: here ++ [step]) :
    SameCourse (Option.Rel (SameOutside hidden (here ++ [step]))) (Tree.child? x step)
      (Tree.child? y step) := by
  have hheads := h.headAt_eq [step] hout
  rw [headAt, headAt, nodeAt?_singleton, nodeAt?_singleton] at hheads
  rcases hx : Tree.child? x step with e | _ | x' <;>
    rcases hy : Tree.child? y step with e' | _ | y' <;>
    simp only [hx, hy, Except.map, Option.map, reduceCtorEq, Except.ok.injEq,
      Except.error.injEq] at hheads
  · rw [hheads]
    exact .error e'
  · exact .ok .none
  · exact .ok (.some (h.child hx hy))

/-- The same for a field in focus. -/
theorem focusField? {name : String} (h : SameOutside hidden here x y)
    (hout : ¬ hidden <+: here.field name) :
    SameCourse (Option.Rel fun f f' : Focus α α =>
        SameOutside hidden (here.field name) f.part f'.part)
      (Tree.focusField? x name) (Tree.focusField? y name) := by
  have hchild : SameCourse (Option.Rel (SameOutside hidden (here.field name)))
      (Tree.child? x (.field name)) (Tree.child? y (.field name)) := h.child? hout
  simp only [Tree.child?, LawfulTree.field?_eq] at hchild
  rcases hx : Tree.focusField? x name with e | _ | f <;>
    rcases hy : Tree.focusField? y name with e' | _ | f' <;>
    simp only [hx, hy, Except.map, Option.map] at hchild <;> cases hchild
  · exact .error _
  · exact .ok .none
  · next related => cases related
  · next related => cases related
  · next related =>
    cases related with
    | some same => exact .ok (.some same)

theorem items {xs ys : List α} (h : SameOutside hidden here x y) (hout : ¬ hidden <+: here)
    (hx : Tree.elements? x = some xs) (hy : Tree.elements? y = some ys) :
    SameItems hidden here 0 xs ys := by
  have hlength := LawfulTree.length?_congr (h.head_eq hout)
  rw [Tree.length?, Tree.length?, hx, hy] at hlength
  refine .of_getElem? (by simpa using hlength) fun k x' y' hx' hy' => ?_
  rw [Nat.zero_add]
  have hx' : Tree.child? x (.index k) = .ok (some x') := by rw [Tree.child?_index hx, hx']
  have hy' : Tree.child? y (.index k) = .ok (some y') := by rw [Tree.child?_index hy, hy']
  exact h.child hx' hy'

theorem elements? (h : SameOutside hidden here x y) (hout : ¬ hidden <+: here) :
    Option.Rel (SameItems hidden here 0) (Tree.elements? x) (Tree.elements? y) := by
  have hlength := LawfulTree.length?_congr (h.head_eq hout)
  unfold Tree.length? at hlength
  cases hx : Tree.elements? x <;> cases hy : Tree.elements? y <;>
    simp only [hx, hy, Option.map, reduceCtorEq] at hlength
  · exact .none
  · exact .some (h.items hout hx hy)

/-! ## Putting something one step below -/

/-- Replacing nodes by such that are the same but for what is hidden. -/
theorem replaced {step : Location.Step} {v w x' y' : α} (h : SameOutside hidden here x y)
    (hx : Replaced x step v x') (hy : Replaced y step w y') (hsx : Sound x') (hsy : Sound y')
    (hvw : SameOutside hidden (here ++ [step]) v w) : SameOutside hidden here x' y' where
  sound_left := hsx
  sound_right := hsy
  headAt_eq l hl := by
    cases l with
    | nil =>
      rw [headAt_nil, headAt_nil, hx.head_eq, hy.head_eq]
      simpa using h.headAt_eq [] hl
    | cons other below =>
      by_cases hstep : other = step
      · subst hstep
        rw [headAt_cons, headAt_cons, hx.child?_self, hy.child?_self]
        exact hvw.headAt_eq below (by simpa using hl)
      · rw [headAt_cons_congr (hx.child?_of_ne other hstep),
          headAt_cons_congr (hy.child?_of_ne other hstep)]
        exact h.headAt_eq _ hl

theorem putField {name : String} {f f' : Focus α α} {v w : α} (h : SameOutside hidden here x y)
    (hx : Tree.focusField? x name = .ok (some f)) (hy : Tree.focusField? y name = .ok (some f'))
    (hvw : SameOutside hidden (here.field name) v w) :
    SameOutside hidden here (f.put v) (f'.put w) :=
  h.replaced (LawfulTree.replaced_put_field h.sound_left hx v)
    (LawfulTree.replaced_put_field h.sound_right hy w)
    (LawfulTree.sound_put_field h.sound_left hx hvw.sound_left)
    (LawfulTree.sound_put_field h.sound_right hy hvw.sound_right) hvw

/-- Putting as many items as there were. -/
theorem putElements {f f' : Focus α (List α)} {xs ys : List α}
    (h : SameOutside hidden here x y) (hx : Tree.focusElements? x = some f)
    (hy : Tree.focusElements? y = some f') (hxs : xs.length = f.part.length)
    (hys : ys.length = f'.part.length) (hitems : SameItems hidden here 0 xs ys) :
    SameOutside hidden here (f.put xs) (f'.put ys) where
  sound_left := LawfulTree.sound_put_elements hx hitems.sound.1
  sound_right := LawfulTree.sound_put_elements hy hitems.sound.2
  headAt_eq l hl := by
    match l with
    | [] =>
      rw [headAt_nil, headAt_nil, LawfulTree.head_put_elements hx xs hxs,
        LawfulTree.head_put_elements hy ys hys]
      simpa using h.headAt_eq [] hl
    | .field name :: below =>
      have hx' : Tree.child? (f.put xs) (.field name) = Tree.child? x (.field name) :=
        LawfulTree.field?_put_elements hx xs name
      have hy' : Tree.child? (f'.put ys) (.field name) = Tree.child? y (.field name) :=
        LawfulTree.field?_put_elements hy ys name
      rw [headAt_cons_congr hx', headAt_cons_congr hy']
      exact h.headAt_eq _ hl
    | .index k :: below =>
      rw [headAt_cons, headAt_cons, Tree.child?_index (elements?_put hx xs),
        Tree.child?_index (elements?_put hy ys)]
      have hnone : xs[k]? = none ↔ ys[k]? = none := by
        rw [List.getElem?_eq_none_iff, List.getElem?_eq_none_iff, hitems.length_eq]
      cases hxk : xs[k]? <;> cases hyk : ys[k]? <;> simp only [hxk, hyk, reduceCtorEq] at hnone
      · rfl
      · cases hnone.mp trivial
      · cases hnone.mpr trivial
      · have hvw := hitems.getElem? hxk hyk
        rw [Nat.zero_add] at hvw
        exact hvw.headAt_eq below (by rwa [Location.index, List.append_assoc])

end SameOutside

end RecordCipher
