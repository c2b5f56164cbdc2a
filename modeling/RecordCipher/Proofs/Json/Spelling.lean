import RecordCipher.Json.Reader
import RecordCipher.Proofs.Expression.Lexing

/-!
# How JSON values are written

A value can be written in many ways: with blanks between its parts, and with escapes in its
strings. The grammar says which texts these are without saying how they are read, and is confined
to the values that settings are made of: `null`, natural numbers, strings, arrays and objects. The
members of an object stand here in the order in which they are written.

## Main definitions

* `SpelledChar`, `SpelledText`: what can stand for a character of a string, and for its content
* `Spells`, `SpellsItems`, `SpellsMembers`: the texts of a value, of what is left of an array, and
  of what is left of an object
* `Ends`: nothing that could prolong a number

## Main results

* `Spells.exists_trimmed`: the blanks in front of a value do not matter
* `SpellsItems.ends`, `SpellsMembers.ends`: what stands behind an item or a member does not prolong
  a number
* `SpellsItems.length_lt`, `SpellsMembers.length_lt`: a text is longer than what it lists
-/

namespace RecordCipher

/-! ## The grammar -/

/-- Blanks and nothing else. -/
def Blank (chars : List Char) : Prop := ∀ c ∈ chars, isJsonBlank c = true

/-- The hexadecimal digits with their values. -/
def hexAlphabet : List (Char × Nat) :=
  ['0', '1', '2', '3', '4', '5', '6', '7', '8', '9', 'a', 'b', 'c', 'd', 'e', 'f'].zipIdx ++
    ['A', 'B', 'C', 'D', 'E', 'F'].zipIdx 10

/-- The four digits of a code. -/
inductive SpelledCode : List Char → Nat → Prop where
  /-- The most significant digit comes first. -/
  | digits {a b c d : Char} {i j k l : Nat} (first : (a, i) ∈ hexAlphabet)
    (second : (b, j) ∈ hexAlphabet) (third : (c, k) ∈ hexAlphabet) (fourth : (d, l) ∈ hexAlphabet) :
    SpelledCode [a, b, c, d] (((i * 16 + j) * 16 + k) * 16 + l)

/-- The escapes of two characters: what stands behind the backslash, and what it stands for. -/
def shortEscapes : List (Char × Char) :=
  [('"', '"'), ('\\', '\\'), ('/', '/'), ('b', '\x08'), ('f', '\x0c'), ('n', '\n'), ('r', '\r'),
    ('t', '\t')]

/-- A character that can stand for itself in a string: no control character, and none that has a
meaning of its own. -/
def isPlain (c : Char) : Bool := decide (0x20 ≤ c.toNat) && c != '"' && c != '\\'

/-- What can stand for a character in a string. -/
inductive SpelledChar : List Char → Char → Prop where
  /-- The character itself. -/
  | plain {c : Char} (h : isPlain c = true) : SpelledChar [c] c
  /-- An escape of two characters. -/
  | short {e c : Char} (escape : (e, c) ∈ shortEscapes) : SpelledChar ['\\', e] c
  /-- The code of the character. -/
  | code {digits : List Char} {c : Char} (spelled : SpelledCode digits c.toNat) :
    SpelledChar ('\\' :: 'u' :: digits) c
  /-- A pair of surrogates, for a character beyond the first 65536. -/
  | pair {digits digits' : List Char} {high low : Nat} {c : Char}
    (spelled : SpelledCode digits high) (spelled' : SpelledCode digits' low)
    (isHigh : 0xD800 ≤ high ∧ high ≤ 0xDBFF) (isLow : 0xDC00 ≤ low ∧ low ≤ 0xDFFF)
    (value : c.toNat = (high - 0xD800) * 0x400 + (low - 0xDC00) + 0x10000) :
    SpelledChar ('\\' :: 'u' :: digits ++ '\\' :: 'u' :: digits') c

/-- What can stand for a text in a string. -/
inductive SpelledText : List Char → List Char → Prop where
  /-- Nothing. -/
  | nil : SpelledText [] []
  /-- A character before others. -/
  | cons {written others content : List Char} {c : Char} (first : SpelledChar written c)
    (rest : SpelledText others content) : SpelledText (written ++ others) (c :: content)

/-- What separates an item or a member from those before it, if there are any. -/
inductive Separator : (isFirst : Bool) → List Char → Prop where
  /-- Nothing comes before the first one. -/
  | first : Separator true []
  /-- A comma, with blanks in front of it. -/
  | comma {blanks : List Char} (blank : Blank blanks) : Separator false (blanks ++ [','])

mutual

/-- The texts of a value, with the blanks in front of it. -/
inductive Spells : List Char → Json → Prop where
  /-- The word for nothing. -/
  | null {blanks : List Char} (blank : Blank blanks) :
    Spells (blanks ++ ['n', 'u', 'l', 'l']) .null
  /-- A natural number has no leading zeros. -/
  | number {blanks : List Char} (blank : Blank blanks) (n : Nat) :
    Spells (blanks ++ Nat.toDigits 10 n) (.number (.int n))
  /-- A string stands between quotes. -/
  | string {blanks written content : List Char} (blank : Blank blanks)
    (spelled : SpelledText written content) :
    Spells (blanks ++ '"' :: (written ++ ['"'])) (.string (String.ofList content))
  /-- An array stands between brackets. -/
  | array {blanks written : List Char} {items : List Json} (blank : Blank blanks)
    (spelled : SpellsItems true written items) :
    Spells (blanks ++ '[' :: written) (.array items)
  /-- An object stands between braces. -/
  | object {blanks written : List Char} {members : List (String × Json)} (blank : Blank blanks)
    (spelled : SpellsMembers true written members) :
    Spells (blanks ++ '\x7b' :: written) (.object members)

/-- The texts of the items of an array that are left, up to the closing bracket. -/
inductive SpellsItems : (isFirst : Bool) → List Char → List Json → Prop where
  /-- The closing bracket. -/
  | nil {isFirst : Bool} {blanks : List Char} (blank : Blank blanks) :
    SpellsItems isFirst (blanks ++ [']']) []
  /-- An item before others. -/
  | cons {isFirst : Bool} {separator written others : List Char} {item : Json} {items : List Json}
    (separates : Separator isFirst separator) (spelled : Spells written item)
    (rest : SpellsItems false others items) :
    SpellsItems isFirst (separator ++ (written ++ others)) (item :: items)

/-- The texts of the members of an object that are left, up to the closing brace. -/
inductive SpellsMembers : (isFirst : Bool) → List Char → List (String × Json) → Prop where
  /-- The closing brace. -/
  | nil {isFirst : Bool} {blanks : List Char} (blank : Blank blanks) :
    SpellsMembers isFirst (blanks ++ ['\x7d']) []
  /-- A member before others: its key, a colon, and its value. -/
  | cons {isFirst : Bool} {separator keyWritten blanks written others : List Char} {key : String}
    {value : Json} {members : List (String × Json)} (separates : Separator isFirst separator)
    (keySpelled : Spells keyWritten (.string key)) (blank : Blank blanks)
    (spelled : Spells written value) (rest : SpellsMembers false others members) :
    SpellsMembers isFirst (separator ++ (keyWritten ++ (blanks ++ ':' :: (written ++ others))))
      ((key, value) :: members)

end

/-- A text that could not prolong a number in front of it. -/
def Ends (chars : List Char) : Prop :=
  ∀ c ∈ chars.head?, isDecimalDigit c = false ∧ c ≠ '.' ∧ c ≠ 'e' ∧ c ≠ 'E'

theorem blank_nil : Blank [] := by simp [Blank]

/-! ## Strings without escapes -/

theorem SpelledText.plain {content : List Char} (h : content.all isPlain = true) :
    SpelledText content content := by
  induction content with
  | nil => exact .nil
  | cons c content ih =>
    rw [List.all_cons, Bool.and_eq_true] at h
    exact .cons (.plain h.1) (ih h.2)

/-- A string of which nothing has to be escaped stands for itself. -/
theorem Spells.plain {blanks : List Char} (blank : Blank blanks) (s : String)
    (h : s.toList.all isPlain = true) :
    Spells (blanks ++ '"' :: (s.toList ++ ['"'])) (.string s) := by
  have := Spells.string blank (.plain h)
  rwa [String.ofList_toList] at this

/-! ## What a text starts with -/

theorem isJsonBlank_of_isDecimalDigit {c : Char} (h : isDecimalDigit c = true) :
    isJsonBlank c = false := by
  have := isDecimalDigit_iff.mp h
  by_contra hblank
  simp only [isJsonBlank, Bool.not_eq_false, Bool.or_eq_true, beq_iff_eq] at hblank
  rcases hblank with ((rfl | rfl) | rfl) | rfl <;> simp at this

/-- A value starts with a character that is no blank, no closing bracket, and tells whether it is
`null`. -/
theorem Spells.exists_trimmed {chars : List Char} {value : Json} (h : Spells chars value) :
    ∃ blanks c more, chars = blanks ++ c :: more ∧ Blank blanks ∧ Spells (c :: more) value ∧
      isJsonBlank c = false ∧ c ≠ ']' ∧ (c = 'n' → value = .null) := by
  cases h with
  | @null blanks blank =>
    exact ⟨blanks, 'n', _, rfl, blank, .null blank_nil, rfl, by decide, fun _ => rfl⟩
  | @number blanks blank n =>
    have hspelled : Spells ([] ++ Nat.toDigits 10 n) (.number (.int n)) := .number blank_nil n
    cases hcons : Nat.toDigits 10 n with
    | nil => exact absurd hcons Nat.toDigits_ne_nil
    | cons c tail =>
      have hdigit : isDecimalDigit c = true :=
        isDecimalDigit_of_mem_toDigits (hcons ▸ List.mem_cons_self)
      rw [hcons] at hspelled
      refine ⟨blanks, c, tail, rfl, blank, hspelled, isJsonBlank_of_isDecimalDigit hdigit, ?_, ?_⟩
      · rintro rfl
        exact absurd hdigit (by decide)
      · rintro rfl
        exact absurd hdigit (by decide)
  | @string blanks written content blank spelled =>
    exact ⟨blanks, '"', _, rfl, blank, .string blank_nil spelled, rfl, by decide, by simp⟩
  | @array blanks written items blank spelled =>
    exact ⟨blanks, '[', _, rfl, blank, .array blank_nil spelled, rfl, by decide, by simp⟩
  | @object blanks written members blank spelled =>
    exact ⟨blanks, '\x7b', _, rfl, blank, .object blank_nil spelled, rfl, by decide, by simp⟩

/-- Blanks do not prolong a number. -/
theorem Ends.blank_append {blanks chars : List Char} (blank : Blank blanks) (h : Ends chars) :
    Ends (blanks ++ chars) := by
  cases blanks with
  | nil => exact h
  | cons c rest =>
    rintro _ ⟨⟩
    have hblank := blank c List.mem_cons_self
    simp only [isJsonBlank, Bool.or_eq_true, beq_iff_eq] at hblank
    rcases hblank with ((rfl | rfl) | rfl) | rfl <;> decide

theorem Blank.ends {blanks : List Char} (blank : Blank blanks) : Ends blanks := by
  have : Ends (blanks ++ []) := .blank_append blank (by simp [Ends])
  rwa [List.append_nil] at this

/-- What stands behind an item does not prolong it. -/
theorem SpellsItems.ends {chars : List Char} {items : List Json}
    (h : SpellsItems false chars items) (rest : List Char) : Ends (chars ++ rest) := by
  cases h with
  | nil blank =>
    rw [List.append_assoc]
    exact .blank_append blank (by simp [Ends, isDecimalDigit])
  | cons separates spelled others =>
    obtain ⟨⟩ | ⟨blank⟩ := separates
    rw [List.append_assoc, List.append_assoc]
    exact .blank_append blank (by simp [Ends, isDecimalDigit])

/-- What stands behind a member does not prolong its value. -/
theorem SpellsMembers.ends {chars : List Char} {members : List (String × Json)}
    (h : SpellsMembers false chars members) (rest : List Char) : Ends (chars ++ rest) := by
  cases h with
  | nil blank =>
    rw [List.append_assoc]
    exact .blank_append blank (by simp [Ends, isDecimalDigit])
  | cons separates keySpelled blank spelled others =>
    obtain ⟨⟩ | ⟨blank⟩ := separates
    rw [List.append_assoc, List.append_assoc]
    exact .blank_append blank (by simp [Ends, isDecimalDigit])

/-! ## How long a text is -/

theorem SpelledChar.length_pos {written : List Char} {c : Char} (h : SpelledChar written c) :
    0 < written.length := by
  cases h <;> simp

theorem SpelledText.length_le {written content : List Char} (h : SpelledText written content) :
    content.length ≤ written.length := by
  induction h with
  | nil => exact Nat.le_refl 0
  | cons first rest ih =>
    have := first.length_pos
    simp only [List.length_cons, List.length_append]
    omega

theorem Spells.length_pos {chars : List Char} {value : Json} (h : Spells chars value) :
    0 < chars.length := by
  obtain ⟨blanks, c, more, rfl, -⟩ := h.exists_trimmed
  rw [List.length_append, List.length_cons]
  omega

/-- The text of items is longer than their number. -/
theorem SpellsItems.length_lt {isFirst : Bool} {chars : List Char} {items : List Json}
    (h : SpellsItems isFirst chars items) : items.length < chars.length := by
  induction items generalizing isFirst chars with
  | nil =>
    cases h
    simp
  | cons item items ih =>
    obtain _ | ⟨-, spelled, others⟩ := h
    have := spelled.length_pos
    have := ih others
    simp only [List.length_cons, List.length_append]
    omega

/-- The text of members is longer than their number. -/
theorem SpellsMembers.length_lt {isFirst : Bool} {chars : List Char}
    {members : List (String × Json)} (h : SpellsMembers isFirst chars members) :
    members.length < chars.length := by
  induction members generalizing isFirst chars with
  | nil =>
    cases h
    simp
  | cons member members ih =>
    obtain _ | ⟨-, -, -, -, others⟩ := h
    have := ih others
    simp only [List.length_cons, List.length_append]
    omega

end RecordCipher
