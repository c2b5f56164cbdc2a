import Mathlib.Data.List.TakeDrop
import RecordCipher.Expression.Canonical
import RecordCipher.Expression.Lexer

/-!
# Lexing text that was put together from lexemes

Lexing goes from the left to the right and takes as much as it can. A text that was put together
from the texts of lexemes therefore falls apart into the same lexemes if none of them goes on
into the next. Signs and quoted names never do. A bare name does when the character behind it can
stand in a name, and a number does when it is a digit.

## Main definitions

* `Lexes`: characters that fall apart into lexemes, wherever they stand in a text

## Main results

* `readQuoted_escaped`: a quoted name reads back, whatever characters it has
* `Lexes.cons`, `Lexes.name`, `Lexes.quoted`, `Lexes.number`: characters with one more lexeme
  before them
-/

namespace RecordCipher

/-! ## Classes of characters -/

theorem exists_of_inRanges {ranges : List (Nat × Nat)} {code : Nat}
    (h : inRanges ranges code = true) : ∃ range ∈ ranges, range.1 ≤ code ∧ code ≤ range.2 := by
  induction ranges with
  | nil => cases h
  | cons range rest ih =>
    rw [inRanges] at h
    split at h
    · cases h
    · next hfirst =>
      split at h
      · next hlast => exact ⟨range, List.mem_cons_self, by omega, hlast⟩
      · obtain ⟨range', hm, hrange'⟩ := ih h
        exact ⟨range', List.mem_cons_of_mem _ hm, hrange'⟩

/-- A code point below the first range is in none. -/
theorem le_of_inRanges {first last code : Nat} {rest : List (Nat × Nat)}
    (h : inRanges ((first, last) :: rest) code = true) : first ≤ code := by
  by_contra hlt
  simp [inRanges, Nat.lt_of_not_le hlt] at h

/-- No blank can stand in a bare name. -/
theorem isIdentifierPart_of_isBlank {c : Char} (h : isBlank c = true) :
    isIdentifierPart c = false := by
  have blanks : ∀ range ∈ blankRanges, ∀ code ∈ List.range' range.1 (range.2 + 1 - range.1),
      inRanges alphabeticRanges code = false ∧ inRanges numericRanges code = false ∧
        code ≠ '_'.toNat := by decide +kernel
  obtain ⟨range, hm, hfirst, hlast⟩ := exists_of_inRanges h
  obtain ⟨hletter, hnumber, hcode⟩ :=
    blanks range hm c.toNat (List.mem_range'_1.mpr (by omega))
  have hunderscore : c ≠ '_' := fun hc => hcode (congrArg Char.toNat hc)
  simp [isIdentifierPart, isLetterOrNumber, isLetter, hletter, hnumber, hunderscore]

theorem isBlank_of_isIdentifierPart {c : Char} (h : isIdentifierPart c = true) :
    isBlank c = false := by
  by_contra hblank
  rw [isIdentifierPart_of_isBlank (Bool.not_eq_false _ ▸ hblank)] at h
  cases h

/-- What a bare name starts with can also stand behind its start. -/
theorem isIdentifierPart_of_isIdentifierStart {c : Char} (h : isIdentifierStart c = true) :
    isIdentifierPart c = true := by
  rcases Bool.or_eq_true _ _ ▸ h with hletter | hunderscore
  · simp [isIdentifierPart, isLetterOrNumber, hletter]
  · simp [isIdentifierPart, hunderscore]

theorem isBlank_of_isIdentifierStart {c : Char} (h : isIdentifierStart c = true) :
    isBlank c = false :=
  isBlank_of_isIdentifierPart (isIdentifierPart_of_isIdentifierStart h)

theorem isIdentifier_iff {name : String} : isIdentifier name = true ↔
    ∃ c parts, name.toList = c :: parts ∧ isIdentifierStart c = true ∧
      ∀ d ∈ parts, isIdentifierPart d = true := by
  unfold isIdentifier
  cases name.toList with
  | nil => simp
  | cons c parts => simp [and_assoc]

/-- Signs, quotes and digits stand before the letters. -/
theorem le_of_isIdentifierStart {c : Char} (h : isIdentifierStart c = true) : 0x41 ≤ c.toNat := by
  rcases Bool.or_eq_true _ _ ▸ h with hletter | hunderscore
  · exact le_of_inRanges hletter
  · obtain rfl : c = '_' := by simpa using hunderscore
    decide

theorem isDecimalDigit_iff {c : Char} :
    isDecimalDigit c = true ↔ 0x30 ≤ c.toNat ∧ c.toNat ≤ 0x39 := by
  simp [isDecimalDigit, Char.le_def, UInt32.le_iff_toNat_le]

theorem isDecimalDigit_of_mem_toDigits {n : Nat} {c : Char} (h : c ∈ Nat.toDigits 10 n) :
    isDecimalDigit c = true := by
  have hdigit := Nat.isDigit_of_mem_toDigits (by decide) (by decide) h
  simpa [isDecimalDigit, Char.isDigit, Char.le_def] using hdigit

/-- The ten digits are the first numeric characters. -/
theorem isIdentifierPart_of_isDecimalDigit {c : Char} (h : isDecimalDigit c = true) :
    isIdentifierPart c = true := by
  obtain ⟨hfirst, hlast⟩ := isDecimalDigit_iff.mp h
  have hnumber : inRanges numericRanges c.toNat = true := by
    rw [numericRanges, inRanges, if_neg (Nat.not_lt.mpr hfirst), if_pos hlast]
  simp [isIdentifierPart, isLetterOrNumber, hnumber]

theorem isBlank_of_isDecimalDigit {c : Char} (h : isDecimalDigit c = true) :
    isBlank c = false :=
  isBlank_of_isIdentifierPart (isIdentifierPart_of_isDecimalDigit h)

/-! ## Scanning -/

/-- The characters that are a lexeme on their own or begin a quoted name. -/
def signs : List Char := ['$', '.', '[', ']', '*', '\'', '"']

/-- A character of a class without signs is no sign. -/
theorem ne_sign {p : Char → Bool} (hsigns : (signs.all fun sign => !p sign) = true) {c : Char}
    (h : p c = true) : ∀ sign ∈ signs, c ≠ sign := by
  rintro sign hm rfl
  have hother := List.all_eq_true.mp hsigns c hm
  simp [h] at hother

theorem scan_digits {c : Char} (h : isDecimalDigit c = true) (rest : List Char) :
    scan c rest =
      ⟨if decimalValue (c :: rest.takeWhile isDecimalDigit) < wordSize then
          .ok (.number (decimalValue (c :: rest.takeWhile isDecimalDigit)))
        else .error .indexOutOfRange,
        byteLength (c :: rest.takeWhile isDecimalDigit), rest.dropWhile isDecimalDigit⟩ := by
  have hsigns := ne_sign (by decide) h
  simp only [signs, List.forall_mem_cons] at hsigns
  simp [scan, hsigns, h]

theorem scan_identifier {c : Char} (h : isIdentifierStart c = true) (rest : List Char) :
    scan c rest = ⟨.ok (.name (String.ofList (c :: rest.takeWhile isIdentifierPart))),
      byteLength (c :: rest.takeWhile isIdentifierPart), rest.dropWhile isIdentifierPart⟩ := by
  have hsigns := ne_sign (by decide) h
  simp only [signs, List.forall_mem_cons] at hsigns
  have hdigit : ¬ isDecimalDigit c = true := by
    rw [isDecimalDigit_iff]
    have := le_of_isIdentifierStart h
    omega
  simp [scan, hsigns, hdigit, h]

/-- A quoted name reads back, whatever characters it has and whatever stands behind it. -/
theorem readQuoted_escaped (name behind : List Char) :
    ∃ size, readQuoted '\'' (name.flatMap (fun c => if c = '\\' ∨ c = '\'' then ['\\', c] else [c])
      ++ '\'' :: behind) = (some name, size, behind) := by
  induction name with
  | nil =>
    refine ⟨'\''.utf8Size, ?_⟩
    rw [List.flatMap_nil, List.nil_append, readQuoted.eq_def]
    simp
  | cons c rest ih =>
    obtain ⟨size, ih⟩ := ih
    rw [List.flatMap_cons, List.append_assoc]
    split
    · -- the backslash stands for the character behind it
      refine ⟨'\\'.utf8Size + c.utf8Size + size, ?_⟩
      rw [List.cons_append, List.singleton_append, readQuoted.eq_def]
      simp [ih]
    · next hplain =>
      rw [not_or] at hplain
      refine ⟨c.utf8Size + size, ?_⟩
      rw [List.singleton_append, readQuoted.eq_def]
      simp [hplain, ih]

/-! ## Numbers -/

theorem decimalValue_toDigits (n : Nat) : decimalValue (Nat.toDigits 10 n) = n := by
  have h := Nat.ofDigitChars_ten_toDigits (n := n)
  rw [Nat.ofDigitChars_eq_foldl] at h
  rw [decimalValue]
  simpa only [Nat.mul_comm] using h

/-! ## Lexing -/

/-- What is taken while a condition holds ends where it does not hold any more. -/
theorem takeWhile_append_stop {p : Char → Bool} {taken behind : List Char}
    (htaken : ∀ c ∈ taken, p c = true) (hbehind : ∀ c ∈ behind.head?, p c = false) :
    (taken ++ behind).takeWhile p = taken ∧ (taken ++ behind).dropWhile p = behind := by
  rw [List.takeWhile_append_of_pos htaken, List.dropWhile_append_of_pos htaken]
  cases behind with
  | nil => simp
  | cons c rest => simp [hbehind c rfl]

/-- Characters fall apart into lexemes, wherever they stand in a text. -/
def Lexes (chars : List Char) (lexemes : List Lexeme) : Prop :=
  ∀ fuel offset, chars.length < fuel → ∃ tokens,
    Cursor.tokens fuel ⟨chars, offset⟩ = .ok tokens ∧ tokens.map Token.lexeme = lexemes

namespace Lexes

theorem nil : Lexes [] [] := by
  intro fuel offset hfuel
  obtain ⟨fuel, rfl⟩ := Nat.exists_eq_succ_of_ne_zero (Nat.ne_of_gt hfuel)
  exact ⟨[], rfl, rfl⟩

/-- What is scanned first comes before what is behind it. -/
theorem cons {c : Char} {taken behind : List Char} {lexeme : Lexeme} {lexemes : List Lexeme}
    (hblank : isBlank c = false)
    (hscan : ∃ size, scan c (taken ++ behind) = ⟨.ok lexeme, size, behind⟩)
    (h : Lexes behind lexemes) : Lexes (c :: (taken ++ behind)) (lexeme :: lexemes) := by
  intro fuel offset hfuel
  obtain ⟨size, hscan⟩ := hscan
  obtain ⟨fuel, rfl⟩ := Nat.exists_eq_succ_of_ne_zero (Nat.ne_of_gt (Nat.zero_lt_of_lt hfuel))
  have hbehind : behind.length < fuel := by
    simp only [List.length_cons, List.length_append] at hfuel
    omega
  obtain ⟨tokens, htokens, hlexemes⟩ := h fuel (offset + size) hbehind
  have hskip : Cursor.skipBlanks ⟨c :: (taken ++ behind), offset⟩ =
      ⟨c :: (taken ++ behind), offset⟩ := by
    simp [Cursor.skipBlanks, hblank, byteLength]
  have hnext : Cursor.next ⟨c :: (taken ++ behind), offset⟩ =
      (some (.ok ⟨lexeme, offset⟩), ⟨behind, offset + size⟩) := by
    simp only [Cursor.next, hskip, hscan]
  refine ⟨⟨lexeme, offset⟩ :: tokens, ?_, by simp [hlexemes]⟩
  simp only [Cursor.tokens, hnext, htokens]
  rfl

/-- A sign is a lexeme on its own. -/
theorem sign {c : Char} {behind : List Char} {lexeme : Lexeme} {lexemes : List Lexeme}
    (hblank : isBlank c = false) (hscan : scan c behind = ⟨.ok lexeme, 1, behind⟩)
    (h : Lexes behind lexemes) : Lexes (c :: behind) (lexeme :: lexemes) := by
  rw [← List.nil_append behind] at hscan ⊢
  exact cons hblank ⟨1, hscan⟩ h

/-- A bare name ends where no character of a name follows. -/
theorem name {name : String} (hname : isIdentifier name = true) {behind : List Char}
    (hbehind : ∀ c ∈ behind.head?, isIdentifierPart c = false) {lexemes : List Lexeme}
    (h : Lexes behind lexemes) : Lexes (name.toList ++ behind) (.name name :: lexemes) := by
  obtain ⟨c, parts, hchars, hstart, hparts⟩ := isIdentifier_iff.mp hname
  obtain ⟨htake, hdrop⟩ := takeWhile_append_stop hparts hbehind
  rw [hchars, List.cons_append]
  refine cons (isBlank_of_isIdentifierStart hstart) ⟨byteLength (c :: parts), ?_⟩ h
  rw [scan_identifier hstart, htake, hdrop, ← hchars, String.ofList_toList]

/-- A quoted name ends with its quote. -/
theorem quoted (name : String) {behind : List Char} {lexemes : List Lexeme}
    (h : Lexes behind lexemes) :
    Lexes ('\'' :: ((escapeName name).toList ++ '\'' :: behind)) (.quoted name :: lexemes) := by
  obtain ⟨size, hread⟩ := readQuoted_escaped name.toList behind
  have hchars : (escapeName name).toList ++ '\'' :: behind =
      (escapeName name).toList ++ ['\''] ++ behind := by simp
  rw [hchars]
  refine cons rfl ⟨1 + size, ?_⟩ h
  rw [← hchars, escapeName, String.toList_ofList, scan]
  simp [hread]

/-- A number ends where no digit follows. -/
theorem number {i : Nat} (hi : i < wordSize) {behind : List Char}
    (hbehind : ∀ c ∈ behind.head?, isDecimalDigit c = false) {lexemes : List Lexeme}
    (h : Lexes behind lexemes) :
    Lexes ((toString i).toList ++ behind) (.number i :: lexemes) := by
  have hchars : (toString i).toList = Nat.toDigits 10 i := by
    rw [Nat.toString_eq_repr, Nat.repr_eq_ofList_toDigits, String.toList_ofList]
  have hdigits : ∀ c ∈ Nat.toDigits 10 i, isDecimalDigit c = true :=
    fun c => isDecimalDigit_of_mem_toDigits
  have hvalue := decimalValue_toDigits i
  rw [hchars]
  cases hcons : Nat.toDigits 10 i with
  | nil => exact absurd hcons Nat.toDigits_ne_nil
  | cons c rest =>
    rw [hcons] at hdigits hvalue
    obtain ⟨hfirst, hrest⟩ := List.forall_mem_cons.mp hdigits
    obtain ⟨htake, hdrop⟩ := takeWhile_append_stop hrest hbehind
    refine cons (isBlank_of_isDecimalDigit hfirst) ⟨byteLength (c :: rest), ?_⟩ h
    rw [scan_digits hfirst, htake, hdrop, hvalue, if_pos hi]

end Lexes

end RecordCipher
