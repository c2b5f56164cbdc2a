import Mathlib.Tactic.SplitIfs
import RecordCipher.Exchange.Item
import RecordCipher.Proofs.Computation

/-!
# Base64 texts

Every byte string has one text, and no other text is decoded to it: decoding is the inverse of
encoding, and is defined on the texts of byte strings and nowhere else. These are the texts whose
digits and padding signs are laid out canonically.

The groups of four symbols are looked at one by one. A group without padding and the last group
are read apart, as they are in decoding, and what is read is compared with what three bytes, two
or one are written as.

## Main definitions

* `base64Code`: the text of a byte string, as bytes
* `CanonicalBase64`: how the symbols of a text are laid out

## Main results

* `exists_canonical`, `CanonicalBase64.exists_code`: the texts of byte strings are those laid out
  canonically
* `readTail_eq_ok_iff`, `decodeTail_eq_ok_iff`: reading the last group
* `decodeSymbols_eq_ok_iff`, `decodeBase64_eq_ok_iff`: decoding is the inverse of encoding
* `Item.ofBase64_eq_ok_iff`: the items that texts are decoded to
-/

namespace RecordCipher

/-! ## Symbols and digits -/

/-- The byte of the symbol of a six-bit number. -/
def symbolByte (n : Nat) : Nat := (base64Symbol n).toNat

theorem base64Digit_symbolByte {n : Nat} (h : n < 64) : base64Digit (symbolByte n) = some n := by
  revert n
  decide

theorem symbolByte_lt {n : Nat} (h : n < 64) : symbolByte n < 128 := by
  revert n
  decide

/-- A byte has a digit when it is the symbol of that digit. -/
theorem base64Digit_eq_some_iff {b n : Nat} :
    base64Digit b = some n ↔ n < 64 ∧ b = symbolByte n := by
  constructor
  · intro h
    -- No byte behind the symbols has a digit, so that there are few to look at.
    have hb : b < 128 := by
      simp only [base64Digit] at h
      split_ifs at h <;> omega
    have table : ∀ b < 128, ∀ n ∈ base64Digit b, n < 64 ∧ b = symbolByte n := by decide
    exact table b hb n h
  · rintro ⟨hn, rfl⟩
    exact base64Digit_symbolByte hn

theorem symbolByte_ne_padding {n : Nat} (h : n < 64) : symbolByte n ≠ padding := by
  revert n
  decide

/-! ## The text of a byte string -/

/-- The Base64 text of a byte string, as bytes. -/
def base64Code (raw : Bytes) : List Nat := (base64Symbols raw).map Char.toNat

@[simp] theorem base64Code_nil : base64Code [] = [] := rfl

/-- One last byte is written in two symbols, the second of which has two bits of it. -/
theorem base64Code_one (a : UInt8) :
    base64Code [a] =
      [symbolByte (a.toNat / 4), symbolByte (a.toNat % 4 * 16), padding, padding] := rfl

/-- Two last bytes are written in three symbols, the third of which has four bits of them. -/
theorem base64Code_two (a b : UInt8) :
    base64Code [a, b] = [symbolByte (a.toNat / 4), symbolByte (a.toNat % 4 * 16 + b.toNat / 16),
      symbolByte (b.toNat % 16 * 4), padding] := by
  have hb := b.toNat_lt
  have h₁ : (a.toNat * 256 + b.toNat) / 1024 = a.toNat / 4 := by omega
  have h₂ : (a.toNat * 256 + b.toNat) / 16 % 64 = a.toNat % 4 * 16 + b.toNat / 16 := by omega
  have h₃ : (a.toNat * 256 + b.toNat) % 16 * 4 = b.toNat % 16 * 4 := by omega
  simp only [base64Code, base64Symbols, h₁, h₂, h₃]
  rfl

/-- Three bytes are written in four symbols, six bits in each. -/
theorem base64Code_cons (a b c : UInt8) (rest : Bytes) :
    base64Code (a :: b :: c :: rest) =
      symbolByte (a.toNat / 4) :: symbolByte (a.toNat % 4 * 16 + b.toNat / 16) ::
        symbolByte (b.toNat % 16 * 4 + c.toNat / 64) :: symbolByte (c.toNat % 64) ::
        base64Code rest := by
  have hb := b.toNat_lt
  have hc := c.toNat_lt
  have h₁ : ((a.toNat * 256 + b.toNat) * 256 + c.toNat) / 262144 = a.toNat / 4 := by omega
  have h₂ : ((a.toNat * 256 + b.toNat) * 256 + c.toNat) / 4096 % 64 =
      a.toNat % 4 * 16 + b.toNat / 16 := by omega
  have h₃ : ((a.toNat * 256 + b.toNat) * 256 + c.toNat) / 64 % 64 =
      b.toNat % 16 * 4 + c.toNat / 64 := by omega
  have h₄ : ((a.toNat * 256 + b.toNat) * 256 + c.toNat) % 64 = c.toNat % 64 := by omega
  simp only [base64Code, base64Symbols, h₁, h₂, h₃, h₄]
  rfl

/-! The symbols of bytes are those of digits of six bits. -/

theorem digit_lt_of_one (a : UInt8) : ∀ d ∈ [a.toNat / 4, a.toNat % 4 * 16], d < 64 := by
  have ha := a.toNat_lt
  simp only [List.mem_cons, List.not_mem_nil, or_false, forall_eq_or_imp, forall_eq]
  omega

theorem digit_lt_of_two (a b : UInt8) :
    ∀ d ∈ [a.toNat / 4, a.toNat % 4 * 16 + b.toNat / 16, b.toNat % 16 * 4], d < 64 := by
  have ha := a.toNat_lt
  have hb := b.toNat_lt
  simp only [List.mem_cons, List.not_mem_nil, or_false, forall_eq_or_imp, forall_eq]
  omega

theorem digit_lt_of_three (a b c : UInt8) :
    ∀ d ∈ [a.toNat / 4, a.toNat % 4 * 16 + b.toNat / 16, b.toNat % 16 * 4 + c.toNat / 64,
      c.toNat % 64], d < 64 := by
  have ha := a.toNat_lt
  have hb := b.toNat_lt
  have hc := c.toNat_lt
  simp only [List.mem_cons, List.not_mem_nil, or_false, forall_eq_or_imp, forall_eq]
  omega

@[simp] theorem base64Code_eq_nil_iff {raw : Bytes} : base64Code raw = [] ↔ raw = [] := by
  match raw with
  | [] => simp
  | [a] => simp [base64Code_one]
  | [a, b] => simp [base64Code_two]
  | a :: b :: c :: others => simp [base64Code_cons]

/-! Digits written one after the other are the symbols of the bytes their bits make up. -/

theorem base64Code_group {p q r s : Nat} (hp : p < 64) (hq : q < 64) (hr : r < 64) (hs : s < 64)
    (rest : Bytes) :
    base64Code (UInt8.ofNat (p * 4 + q / 16) :: UInt8.ofNat (q % 16 * 16 + r / 4) ::
        UInt8.ofNat (r % 4 * 64 + s) :: rest) =
      symbolByte p :: symbolByte q :: symbolByte r :: symbolByte s :: base64Code rest := by
  have h₁ : (p * 4 + q / 16) % 2 ^ 8 = p * 4 + q / 16 := Nat.mod_eq_of_lt (by omega)
  have h₂ : (q % 16 * 16 + r / 4) % 2 ^ 8 = q % 16 * 16 + r / 4 := Nat.mod_eq_of_lt (by omega)
  have h₃ : (r % 4 * 64 + s) % 2 ^ 8 = r % 4 * 64 + s := Nat.mod_eq_of_lt (by omega)
  rw [base64Code_cons, UInt8.toNat_ofNat', UInt8.toNat_ofNat', UInt8.toNat_ofNat', h₁, h₂, h₃]
  congr 2
  · omega
  congr 2
  · omega
  congr 2
  · omega
  congr 2
  omega

theorem base64Code_pair {p q : Nat} (hp : p < 64) (hq : q < 64) (spare : q % 16 = 0) :
    base64Code [UInt8.ofNat (p * 4 + q / 16)] =
      [symbolByte p, symbolByte q, padding, padding] := by
  have h₁ : (p * 4 + q / 16) % 2 ^ 8 = p * 4 + q / 16 := Nat.mod_eq_of_lt (by omega)
  rw [base64Code_one, UInt8.toNat_ofNat', h₁]
  congr 2
  · omega
  congr 2
  omega

theorem base64Code_triple {p q r : Nat} (hp : p < 64) (hq : q < 64) (hr : r < 64)
    (spare : r % 4 = 0) :
    base64Code [UInt8.ofNat (p * 4 + q / 16), UInt8.ofNat (q % 16 * 16 + r / 4)] =
      [symbolByte p, symbolByte q, symbolByte r, padding] := by
  have h₁ : (p * 4 + q / 16) % 2 ^ 8 = p * 4 + q / 16 := Nat.mod_eq_of_lt (by omega)
  have h₂ : (q % 16 * 16 + r / 4) % 2 ^ 8 = q % 16 * 16 + r / 4 := Nat.mod_eq_of_lt (by omega)
  rw [base64Code_two, UInt8.toNat_ofNat', UInt8.toNat_ofNat', h₁, h₂]
  congr 2
  · omega
  congr 2
  · omega
  congr 2
  omega

/-! ## The layout of a text -/

/-- A text is made of digits of six bits and of at most two padding signs, which fill up a last
group of four symbols; the bits of the last digit that belong to no byte are zero. -/
structure CanonicalBase64 (digits : List Nat) (signs : Nat) : Prop where
  /-- A digit has six bits. -/
  digit_lt : ∀ d ∈ digits, d < 64
  /-- One byte is missing at the end, or two. -/
  signs_le : signs ≤ 2
  /-- The symbols are groups of four. -/
  groups : 4 ∣ digits.length + signs
  /-- For each padding sign the last digit has two bits too many. -/
  spare : ∀ d ∈ digits.getLast?, (signs = 1 → d % 4 = 0) ∧ (signs = 2 → d % 16 = 0)

/-- The symbols of digits, and padding signs behind them. -/
def layOut (digits : List Nat) (signs : Nat) : List Nat :=
  digits.map symbolByte ++ List.replicate signs padding

/-- A layout starts with a digit or is nothing but padding. -/
theorem cons_eq_layOut_iff {b : Nat} {rest digits : List Nat} {signs : Nat} :
    b :: rest = layOut digits signs ↔
      (∃ d others, digits = d :: others ∧ b = symbolByte d ∧ rest = layOut others signs) ∨
        digits = [] ∧ ∃ n, signs = n + 1 ∧ b = padding ∧ rest = List.replicate n padding := by
  cases digits with
  | nil => cases signs <;> simp [layOut, List.replicate_succ]
  | cons d others => simp [layOut, and_assoc]

/-- Four digits before a canonical layout leave it canonical. -/
theorem canonicalBase64_group_iff {p q r s signs : Nat} {others : List Nat} :
    CanonicalBase64 (p :: q :: r :: s :: others) signs ↔
      (p < 64 ∧ q < 64 ∧ r < 64 ∧ s < 64) ∧ CanonicalBase64 others signs := by
  constructor
  · intro h
    refine ⟨⟨h.digit_lt p (by simp), h.digit_lt q (by simp), h.digit_lt r (by simp),
      h.digit_lt s (by simp)⟩, fun d hd => h.digit_lt d (by simp [hd]), h.signs_le, ?_, ?_⟩
    · have hgroups := h.groups
      simp only [List.length_cons] at hgroups
      omega
    · cases others with
      | nil => simp
      | cons d more => simpa using h.spare
  · rintro ⟨⟨hp, hq, hr, hs⟩, h⟩
    have hgroups := h.groups
    refine ⟨?_, h.signs_le, ?_, ?_⟩
    · simp only [List.mem_cons, forall_eq_or_imp]
      exact ⟨hp, hq, hr, hs, h.digit_lt⟩
    · simp only [List.length_cons]
      omega
    · cases others with
      | nil =>
        -- Without digits behind them, four digits need no padding.
        have hle := h.signs_le
        obtain rfl : signs = 0 := by simp at hgroups; omega
        simp
      | cons d more => simpa using h.spare

/-- A byte string is written in digits and padding signs that are laid out canonically. -/
theorem exists_canonical (raw : Bytes) :
    ∃ digits signs, CanonicalBase64 digits signs ∧ base64Code raw = layOut digits signs := by
  -- Induction on the groups of three bytes; the last group has less than three.
  induction raw using base64Symbols.induct with
  | case1 => exact ⟨[], 0, ⟨by simp, by omega, by simp, by simp⟩, rfl⟩
  | case2 a =>
    exact ⟨_, 2, ⟨digit_lt_of_one a, by omega, by simp, by simp⟩, base64Code_one a⟩
  | case3 a b =>
    exact ⟨_, 1, ⟨digit_lt_of_two a b, by omega, by simp, by simp⟩, base64Code_two a b⟩
  | case4 a b c rest ih =>
    have ha := a.toNat_lt
    have hb := b.toNat_lt
    have hc := c.toNat_lt
    obtain ⟨digits, signs, canonical, hcode⟩ := ih
    refine ⟨a.toNat / 4 :: (a.toNat % 4 * 16 + b.toNat / 16) ::
      (b.toNat % 16 * 4 + c.toNat / 64) :: c.toNat % 64 :: digits, signs,
      canonicalBase64_group_iff.mpr ⟨by omega, canonical⟩, ?_⟩
    rw [base64Code_cons, hcode]
    rfl

/-- Whatever is laid out canonically is a byte string written down. -/
theorem CanonicalBase64.exists_code : ∀ {digits : List Nat} {signs : Nat},
    CanonicalBase64 digits signs → ∃ raw, layOut digits signs = base64Code raw
  | [], signs, h => by
    have hgroups := h.groups
    have hle := h.signs_le
    obtain rfl : signs = 0 := by simp at hgroups; omega
    exact ⟨[], rfl⟩
  | [p], signs, h => by
    have hgroups := h.groups
    have hle := h.signs_le
    simp at hgroups
    omega
  | [p, q], signs, h => by
    have hgroups := h.groups
    have hle := h.signs_le
    obtain rfl : signs = 2 := by simp at hgroups; omega
    have hspare : q % 16 = 0 := (h.spare q (by simp)).2 rfl
    exact ⟨_, (base64Code_pair (h.digit_lt p (by simp)) (h.digit_lt q (by simp)) hspare).symm⟩
  | [p, q, r], signs, h => by
    have hgroups := h.groups
    have hle := h.signs_le
    obtain rfl : signs = 1 := by simp at hgroups; omega
    have hspare : r % 4 = 0 := (h.spare r (by simp)).1 rfl
    exact ⟨_, (base64Code_triple (h.digit_lt p (by simp)) (h.digit_lt q (by simp))
      (h.digit_lt r (by simp)) hspare).symm⟩
  | p :: q :: r :: s :: others, signs, h => by
    obtain ⟨⟨hp, hq, hr, hs⟩, hothers⟩ := canonicalBase64_group_iff.mp h
    obtain ⟨raw, hraw⟩ := hothers.exists_code
    refine ⟨_, Eq.trans ?_ (base64Code_group hp hq hr hs raw).symm⟩
    rw [← hraw]
    rfl

/-! ## Reading the last group -/

/-- Behind a padding sign there is nothing but padding signs. -/
theorem readTail_padded_eq_ok_iff {offset index first : Nat} {tail digits : List Nat}
    {signs : Nat} (hindex : 2 ≤ index) :
    readTail offset tail index (some first) = .ok (digits, signs) ↔
      digits = [] ∧ tail = List.replicate signs padding := by
  induction tail generalizing index digits signs with
  | nil => cases signs <;> cases digits <;> simp [readTail, List.replicate_succ]
  | cons b rest ih =>
    by_cases hb : b = padding
    · subst hb
      simp only [readTail, if_pos, if_neg (Nat.not_lt.mpr hindex), Option.getD_some, bind_eq_ok_iff,
        Prod.exists, ih (Nat.le_succ_of_le hindex), pure, Except.pure, Except.ok.injEq,
        Prod.mk.injEq]
      constructor
      · rintro ⟨_, n, ⟨rfl, rfl⟩, rfl, rfl⟩
        exact ⟨rfl, List.replicate_succ.symm⟩
      · rintro ⟨rfl, htail⟩
        cases signs with
        | zero => simp at htail
        | succ n => exact ⟨[], n, ⟨rfl, by simpa [List.replicate_succ] using htail⟩, rfl, rfl⟩
    · simp only [readTail, if_neg hb, reduceCtorEq, false_iff]
      rintro ⟨rfl, htail⟩
      cases signs with
      | zero => simp at htail
      | succ n => simp [List.replicate_succ, hb] at htail

/-- The last symbols are digits and then padding signs, which are not among the first two. -/
theorem readTail_eq_ok_iff {offset index : Nat} {tail digits : List Nat} {signs : Nat} :
    readTail offset tail index none = .ok (digits, signs) ↔
      (∀ d ∈ digits, d < 64) ∧ tail = layOut digits signs ∧
        (signs ≠ 0 → 2 ≤ index + digits.length) := by
  induction tail generalizing index digits signs with
  | nil =>
    cases digits <;> cases signs <;> simp [readTail, layOut, List.replicate_succ]
  | cons b rest ih =>
    rw [cons_eq_layOut_iff]
    by_cases hb : b = padding
    · subst hb
      constructor
      · intro h
        by_cases hindex : index < 2
        · simp [readTail, hindex] at h
        · simp only [readTail, if_pos, if_neg hindex, Option.getD_none, bind_eq_ok_iff,
            Prod.exists, pure, Except.pure, Except.ok.injEq, Prod.mk.injEq] at h
          obtain ⟨_, n, hread, rfl, rfl⟩ := h
          obtain ⟨rfl, rfl⟩ := (readTail_padded_eq_ok_iff (by omega)).mp hread
          exact ⟨by simp, .inr ⟨rfl, n, rfl, rfl, rfl⟩, by simp; omega⟩
      · rintro ⟨hdigits, ⟨d, others, rfl, hd, -⟩ | ⟨rfl, n, rfl, -, rfl⟩, hindex⟩
        · exact absurd hd.symm (symbolByte_ne_padding (hdigits d (by simp)))
        · have hindex : 2 ≤ index := by simpa using hindex
          simp only [readTail, if_pos, if_neg (Nat.not_lt.mpr hindex), Option.getD_none,
            (readTail_padded_eq_ok_iff (Nat.le_succ_of_le hindex)).mpr ⟨rfl, rfl⟩]
          rfl
    · constructor
      · intro h
        simp only [readTail, if_neg hb] at h
        cases hdigit : base64Digit b with
        | none => simp [hdigit] at h
        | some d =>
          simp only [hdigit, bind_eq_ok_iff, Prod.exists, ih, pure, Except.pure, Except.ok.injEq,
            Prod.mk.injEq] at h
          obtain ⟨others, n, ⟨hdigits, htail, hindex⟩, rfl, rfl⟩ := h
          obtain ⟨hd, hsymbol⟩ := base64Digit_eq_some_iff.mp hdigit
          refine ⟨by simpa using ⟨hd, hdigits⟩, .inl ⟨d, others, rfl, hsymbol, htail⟩, ?_⟩
          intro hsigns
          have := hindex hsigns
          simp only [List.length_cons]
          omega
      · rintro ⟨hdigits, ⟨d, others, rfl, rfl, htail⟩ | ⟨rfl, n, rfl, hpad, -⟩, hindex⟩
        · have hrest : readTail offset rest (index + 1) none = .ok (others, signs) := by
            refine ih.mpr ⟨fun x hx => hdigits x (by simp [hx]), htail, fun hsigns => ?_⟩
            have := hindex hsigns
            simp only [List.length_cons] at this
            omega
          simp only [readTail, if_neg hb, base64Digit_symbolByte (hdigits d (by simp)), hrest]
          rfl
        · exact absurd hpad hb

theorem ofNat_eq_of_toNat {n : Nat} {a : UInt8} (h : n = a.toNat) : UInt8.ofNat n = a := by
  rw [h, UInt8.ofNat_toNat]

/-- A refusal that is not made lets a computation go on. -/
theorem refuse_eq_ok_iff {ε β γ : Type} {c : Prop} [Decidable c] {e : ε} {f : β → Except ε γ}
    {x : Except ε γ} {b : γ} :
    (if c then throw e >>= f else x) = .ok b ↔ ¬c ∧ x = .ok b := by
  by_cases hc : c
  · simp [hc, throw, throwThe, MonadExceptOf.throw, bind, Except.bind]
  · simp [hc]

/-- The last symbols are decoded when they are what one to three bytes are written as. -/
theorem decodeTail_eq_ok_iff {offset : Nat} {tail : List Nat} {raw : Bytes} :
    decodeTail offset tail = .ok raw ↔
      tail = base64Code raw ∧ 1 ≤ raw.length ∧ raw.length ≤ 3 := by
  simp only [decodeTail, bind_eq_ok_iff, Prod.exists, refuse_eq_ok_iff]
  constructor
  · rintro ⟨digits, signs, hread, hfew, htotal, h⟩
    obtain ⟨hdigits, rfl, -⟩ := readTail_eq_ok_iff.mp hread
    match digits, hdigits, hfew, htotal, h with
    | [], _, hfew, _, _ => exact absurd Nat.two_pos hfew
    | [p], _, hfew, _, _ => exact absurd Nat.one_lt_two hfew
    | [p, q], hdigits, _, htotal, h =>
      obtain rfl : signs = 2 := by simp at htotal; omega
      obtain ⟨hspare, hraw⟩ := refuse_eq_ok_iff.mp h
      obtain rfl := Except.ok.inj hraw
      refine ⟨?_, by simp, by simp⟩
      exact (base64Code_pair (hdigits p (by simp)) (hdigits q (by simp)) (not_not.mp hspare)).symm
    | [p, q, r], hdigits, _, htotal, h =>
      obtain rfl : signs = 1 := by simp at htotal; omega
      obtain ⟨hspare, hraw⟩ := refuse_eq_ok_iff.mp h
      obtain rfl := Except.ok.inj hraw
      refine ⟨?_, by simp, by simp⟩
      exact (base64Code_triple (hdigits p (by simp)) (hdigits q (by simp)) (hdigits r (by simp))
        (not_not.mp hspare)).symm
    | p :: q :: r :: s :: more, hdigits, _, htotal, h =>
      obtain ⟨rfl, rfl⟩ : more = [] ∧ signs = 0 := by
        rw [← List.length_eq_zero_iff]
        simp at htotal
        omega
      obtain rfl := Except.ok.inj h
      refine ⟨?_, by simp, by simp⟩
      exact (base64Code_group (hdigits p (by simp)) (hdigits q (by simp)) (hdigits r (by simp))
        (hdigits s (by simp)) []).symm
  · rintro ⟨rfl, hone, hthree⟩
    match raw, hone, hthree with
    | [a], _, _ =>
      have hread : readTail offset (base64Code [a]) 0 none =
          .ok ([a.toNat / 4, a.toNat % 4 * 16], 2) :=
        readTail_eq_ok_iff.mpr ⟨digit_lt_of_one a, base64Code_one a, by simp⟩
      refine ⟨_, _, hread, by simp, by simp, refuse_eq_ok_iff.mpr ⟨by simp, ?_⟩⟩
      rw [ofNat_eq_of_toNat (a := a) (by omega)]
      rfl
    | [a, b], _, _ =>
      have hb := b.toNat_lt
      have hread : readTail offset (base64Code [a, b]) 0 none = .ok ([a.toNat / 4,
          a.toNat % 4 * 16 + b.toNat / 16, b.toNat % 16 * 4], 1) :=
        readTail_eq_ok_iff.mpr ⟨digit_lt_of_two a b, base64Code_two a b, by simp⟩
      refine ⟨_, _, hread, by simp, by simp, refuse_eq_ok_iff.mpr ⟨by simp, ?_⟩⟩
      rw [ofNat_eq_of_toNat (a := a) (by omega), ofNat_eq_of_toNat (a := b) (by omega)]
      rfl
    | [a, b, c], _, _ =>
      have hb := b.toNat_lt
      have hc := c.toNat_lt
      have hread : readTail offset (base64Code [a, b, c]) 0 none = .ok ([a.toNat / 4,
          a.toNat % 4 * 16 + b.toNat / 16, b.toNat % 16 * 4 + c.toNat / 64, c.toNat % 64], 0) :=
        readTail_eq_ok_iff.mpr ⟨digit_lt_of_three a b c, base64Code_cons a b c [], by simp⟩
      refine ⟨_, _, hread, by simp, by simp, ?_⟩
      dsimp only
      rw [ofNat_eq_of_toNat (a := a) (by omega), ofNat_eq_of_toNat (a := b) (by omega),
        ofNat_eq_of_toNat (a := c) (by omega)]
      rfl

/-! ## Reading all groups -/

theorem innerDigit_eq_ok_iff {offset b n : Nat} :
    innerDigit offset b = .ok n ↔ n < 64 ∧ b = symbolByte n := by
  rw [innerDigit, ← base64Digit_eq_some_iff]
  cases base64Digit b <;> simp

/-- A text that goes on behind four symbols is what three bytes and some more are written as. -/
theorem cons_eq_base64Code_iff {p q r s e : Nat} {rest : List Nat} {raw : Bytes} :
    p :: q :: r :: s :: e :: rest = base64Code raw ↔ ∃ a b c others,
      raw = a :: b :: c :: others ∧ [p, q, r, s] = base64Code [a, b, c] ∧
        e :: rest = base64Code others := by
  match raw with
  | [] => simp
  | [a] => simp [base64Code_one]
  | [a, b] => simp [base64Code_two]
  | a :: b :: c :: others =>
    constructor
    · intro h
      simp only [base64Code_cons, List.cons.injEq] at h
      obtain ⟨rfl, rfl, rfl, rfl, hrest⟩ := h
      exact ⟨a, b, c, others, rfl, (base64Code_cons a b c []).symm, hrest⟩
    · rintro ⟨a, b, c, others, heq, hgroup, hrest⟩
      cases heq
      simp only [base64Code_cons, base64Code_nil, List.cons.injEq, and_true] at hgroup
      obtain ⟨rfl, rfl, rfl, rfl⟩ := hgroup
      rw [base64Code_cons, hrest]

/-- Symbols are decoded when they are what a byte string is written as. -/
theorem decodeSymbols_eq_ok_iff {offset : Nat} {symbols : List Nat} {raw : Bytes} :
    decodeSymbols offset symbols = .ok raw ↔ symbols = base64Code raw := by
  -- Induction as the symbols are read, four at a time while there are more behind them.
  induction offset, symbols using decodeSymbols.induct generalizing raw with
  | case1 offset => rw [decodeSymbols, eq_comm (a := []), base64Code_eq_nil_iff]; simp [eq_comm]
  | case2 offset a b c d e rest ih =>
    rw [cons_eq_base64Code_iff]
    simp only [decodeSymbols, bind_eq_ok_iff, innerDigit_eq_ok_iff, ih]
    constructor
    · rintro ⟨p, ⟨hp, rfl⟩, q, ⟨hq, rfl⟩, r, ⟨hr, rfl⟩, s, ⟨hs, rfl⟩, others, hrest, h⟩
      obtain rfl := Except.ok.inj h
      exact ⟨_, _, _, others, rfl, (base64Code_group hp hq hr hs []).symm, hrest⟩
    · rintro ⟨x, y, z, others, rfl, hgroup, hrest⟩
      have hx := x.toNat_lt
      have hy := y.toNat_lt
      have hz := z.toNat_lt
      simp only [base64Code_cons, base64Code_nil, List.cons.injEq, and_true] at hgroup
      obtain ⟨rfl, rfl, rfl, rfl⟩ := hgroup
      refine ⟨_, ⟨by omega, rfl⟩, _, ⟨by omega, rfl⟩, _, ⟨by omega, rfl⟩, _, ⟨by omega, rfl⟩,
        others, hrest, ?_⟩
      rw [ofNat_eq_of_toNat (a := x) (by omega), ofNat_eq_of_toNat (a := y) (by omega),
        ofNat_eq_of_toNat (a := z) (by omega)]
      rfl
  | case3 offset tail hnil hmore =>
    rw [decodeSymbols, decodeTail_eq_ok_iff]
    · refine ⟨fun h => h.1, fun h => ⟨h, ?_⟩⟩
      match raw, h with
      | [], h => exact absurd h hnil
      | [a], _ => simp
      | [a, b], _ => simp
      | [a, b, c], _ => simp
      | a :: b :: c :: x :: others, h =>
        -- With a fourth byte there are more symbols than four.
        have hfour : base64Code (x :: others) ≠ [] := by simp
        obtain ⟨e, rest, he⟩ := List.exists_cons_of_ne_nil hfour
        rw [base64Code_cons, he] at h
        exact absurd h (hmore _ _ _ _ e rest)
    · exact hnil
    · exact hmore

/-! ## Texts -/

theorem utf8EncodeChar_of_lt {c : Char} (hc : c.toNat < 128) :
    String.utf8EncodeChar c = [UInt8.ofNat c.toNat] := by
  rw [String.utf8EncodeChar]
  exact if_pos (Nat.le_of_lt_succ hc)

/-- The encoding of any other character starts with a byte that is no character. -/
theorem exists_utf8EncodeChar_of_le {c : Char} (hc : 128 ≤ c.toNat) :
    ∃ b more, String.utf8EncodeChar c = b :: more ∧ 128 ≤ b.toNat := by
  have hfirst : ¬c.val.toNat ≤ 127 := Nat.not_le.mpr hc
  rw [String.utf8EncodeChar, if_neg hfirst]
  split_ifs
  · exact ⟨_, _, rfl, by simp; omega⟩
  · exact ⟨_, _, rfl, by simp; omega⟩
  · exact ⟨_, _, rfl, by simp; omega⟩

/-- A text of single-byte characters is known by its bytes. -/
theorem map_toNat_utf8_eq_iff {chars others : List Char} (hothers : ∀ c ∈ others, c.toNat < 128) :
    (chars.flatMap String.utf8EncodeChar).map UInt8.toNat = others.map Char.toNat ↔
      chars = others := by
  induction chars generalizing others with
  | nil => simp [eq_comm]
  | cons c rest ih =>
    rcases Nat.lt_or_ge c.toNat 128 with hc | hc
    · have hbyte : (UInt8.ofNat c.toNat).toNat = c.toNat := by
        rw [UInt8.toNat_ofNat']
        exact Nat.mod_eq_of_lt (by omega)
      cases others with
      | nil => simp [utf8EncodeChar_of_lt hc]
      | cons d others =>
        have hrest := ih fun x hx => hothers x (List.mem_cons_of_mem d hx)
        simp only [List.flatMap_cons, utf8EncodeChar_of_lt hc, List.singleton_append,
          List.map_cons, hbyte, List.cons.injEq, hrest, Char.toNat_inj]
    · -- The first byte is no character, and so not one of the others.
      obtain ⟨b, more, hmore, hb⟩ := exists_utf8EncodeChar_of_le hc
      cases others with
      | nil => simp [hmore]
      | cons d others =>
        have hd := hothers d List.mem_cons_self
        have hbyte : b.toNat ≠ d.toNat := by omega
        have hchar : c ≠ d := fun heq => by rw [heq] at hc; omega
        simp [hmore, hbyte, hchar]

theorem layOut_eq_map (digits : List Nat) (signs : Nat) :
    layOut digits signs =
      (digits.map base64Symbol ++ List.replicate signs '=').map Char.toNat := by
  rw [layOut, List.map_append, List.map_map, List.map_replicate]
  rfl

/-- What is laid out canonically has single-byte characters only. -/
theorem CanonicalBase64.toNat_lt {digits : List Nat} {signs : Nat}
    (h : CanonicalBase64 digits signs) :
    ∀ c ∈ digits.map base64Symbol ++ List.replicate signs '=', c.toNat < 128 := by
  intro c hc
  rw [List.mem_append, List.mem_map, List.mem_replicate] at hc
  rcases hc with ⟨d, hd, rfl⟩ | ⟨-, rfl⟩
  · exact symbolByte_lt (h.digit_lt d hd)
  · decide

/-- The symbols of a byte string are laid out canonically. -/
theorem exists_base64Symbols_eq (raw : Bytes) :
    ∃ digits signs, CanonicalBase64 digits signs ∧
      base64Symbols raw = digits.map base64Symbol ++ List.replicate signs '=' := by
  obtain ⟨digits, signs, canonical, hcode⟩ := exists_canonical raw
  refine ⟨digits, signs, canonical, ?_⟩
  rw [layOut_eq_map] at hcode
  exact (List.map_inj_right fun _ _ => Char.toNat_inj.mp).mp hcode

theorem four_dvd_length_base64Code (raw : Bytes) : 4 ∣ (base64Code raw).length := by
  obtain ⟨digits, signs, canonical, hcode⟩ := exists_canonical raw
  simpa [hcode, layOut] using canonical.groups

/-- The text of a byte string is known by its bytes. -/
theorem utf8_eq_base64Code_iff {text : String} {raw : Bytes} :
    (utf8 text).map UInt8.toNat = base64Code raw ↔ text = encodeBase64 raw := by
  obtain ⟨digits, signs, canonical, hsymbols⟩ := exists_base64Symbols_eq raw
  rw [utf8, base64Code, encodeBase64, hsymbols, map_toNat_utf8_eq_iff canonical.toNat_lt,
    ← String.toList_inj, String.toList_ofList]

/-- Decoding is the inverse of encoding. -/
theorem decodeBase64_eq_ok_iff {text : String} {raw : Bytes} :
    decodeBase64 text = .ok raw ↔ text = encodeBase64 raw := by
  rw [← utf8_eq_base64Code_iff, decodeBase64]
  generalize (utf8 text).map UInt8.toNat = symbols
  cases hlast : symbols.getLast? with
  | none =>
    rw [List.getLast?_eq_none_iff.mp hlast]
    simp [eq_comm (a := [])]
  | some last =>
    dsimp only
    split_ifs with hlong
    · -- The text of a byte string is no symbol too long.
      simp only [false_iff]
      rintro rfl
      have hgroups := four_dvd_length_base64Code raw
      omega
    · exact decodeSymbols_eq_ok_iff

/-- The texts of byte strings are those that are laid out canonically. -/
theorem exists_eq_encodeBase64_iff {text : String} :
    (∃ raw, text = encodeBase64 raw) ↔ ∃ digits signs, CanonicalBase64 digits signs ∧
      text.toList = digits.map base64Symbol ++ List.replicate signs '=' := by
  constructor
  · rintro ⟨raw, rfl⟩
    obtain ⟨digits, signs, canonical, hsymbols⟩ := exists_base64Symbols_eq raw
    exact ⟨digits, signs, canonical, by rw [encodeBase64, String.toList_ofList, hsymbols]⟩
  · rintro ⟨digits, signs, canonical, htext⟩
    obtain ⟨raw, hraw⟩ := canonical.exists_code
    refine ⟨raw, utf8_eq_base64Code_iff.mp ?_⟩
    rw [← hraw, layOut_eq_map, utf8, htext]
    exact (map_toNat_utf8_eq_iff canonical.toNat_lt).mpr rfl

/-- A text is decoded to the bytes it is the encoding of, and to nothing else; every item is
decoded from its encoding. A text is decoded exactly when it is laid out canonically: no other
symbols, padding that is neither missing nor in excess, and no bits of its last digit that belong
to no byte. -/
theorem Item.ofBase64_eq_ok_iff (text : String) (item : Item) :
    (∀ raw, ofBase64 text = .ok (.bytes raw) ↔ text = (Item.bytes raw).asBase64) ∧
      ofBase64 item.asBase64 = .ok (.bytes item.asBytes) ∧
      (ofBase64 text = .ok item ↔ item = .bytes item.asBytes ∧ text = item.asBase64) ∧
      ((∃ decoded, ofBase64 text = .ok decoded) ↔
        ∃ digits signs, CanonicalBase64 digits signs ∧
          text.toList = digits.map base64Symbol ++ List.replicate signs '=') := by
  have hdecoded : ∀ decoded, ofBase64 text = .ok decoded ↔
      ∃ raw, text = encodeBase64 raw ∧ Item.bytes raw = decoded := by
    intro decoded
    simp only [ofBase64, map_eq_ok_iff, decodeBase64_eq_ok_iff]
  refine ⟨fun raw => ?_, ?_, ?_, ?_⟩
  · simp [hdecoded, asBase64, asBytes]
  · rw [ofBase64, asBase64, decodeBase64_eq_ok_iff.mpr rfl]
    rfl
  · rw [hdecoded]
    constructor
    · rintro ⟨raw, rfl, rfl⟩
      exact ⟨rfl, rfl⟩
    · rintro ⟨hitem, htext⟩
      exact ⟨item.asBytes, htext, hitem.symm⟩
  · rw [← exists_eq_encodeBase64_iff]
    constructor
    · rintro ⟨decoded, h⟩
      obtain ⟨raw, htext, -⟩ := (hdecoded decoded).mp h
      exact ⟨raw, htext⟩
    · rintro ⟨raw, htext⟩
      exact ⟨.bytes raw, (hdecoded _).mpr ⟨raw, htext, rfl⟩⟩

/-- Bits that belong to no byte are refused, and so is padding that is missing. -/
example : Item.ofBase64 "Zm8=" = .ok (.bytes [0x66, 0x6F]) ∧
    Item.ofBase64 "Zm9=" = .error (.lastSymbol 0x39 2) ∧
    Item.ofBase64 "Zm8" = .error .padding := by
  refine ⟨?_, ?_, ?_⟩ <;> cbv

end RecordCipher
