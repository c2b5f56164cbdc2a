import RecordCipher.Proofs.Expression.CanonicalLength
import RecordCipher.Proofs.Expression.Splitting
import RecordCipher.Proofs.Json.Spelling
import RecordCipher.Settings.Document

/-!
# JSON values are read however they are written

A reader reads a value when it comes to the same result on every text of it, and takes this text
and nothing of what stands behind it.

## Main definitions

* `Reads`: a reader comes to a result on every text of a value

## Main results

* `stringUnits_spelled`: a string is read, whatever is escaped in it
* `takeDigits_toDigits`: a number is read to its end
* `Reader.reads_string`, `Reader.reads_word`, `Reader.reads_choice`: values without parts
* `Reader.reads_optional_null`, `Reader.reads_optional_some`: a value, or `null` instead
* `Reader.nextElement_spelled`, `Reader.nextKey_spelled`: going through arrays and objects
* `Reader.reads_strings`: arrays of strings
-/

namespace RecordCipher

/-! ## Characters and strings -/

theorem hexDigit?_of_mem {c : Char} {n : Nat} (h : (c, n) ∈ hexAlphabet) :
    hexDigit? c = some n := by
  have table : ∀ p ∈ hexAlphabet, hexDigit? p.1 = some p.2 := by decide
  exact table _ h

theorem hexEscape_spelled {digits : List Char} {code : Nat} (h : SpelledCode digits code)
    (rest : List Char) : hexEscape (digits ++ rest) = .ok (code, rest) := by
  cases h with
  | @digits a b c d i j k l first second third fourth =>
    -- the check counts bytes, of which every character has at least one
    have hlength : ¬ byteLength [a, b, c, d] < 4 :=
      Nat.not_lt.mpr (length_le_byteLength [a, b, c, d])
    have htake : ([a, b, c, d] ++ rest).take 4 = [a, b, c, d] := rfl
    rw [hexEscape.eq_def, htake, if_neg hlength]
    simp [hexDigit?_of_mem first, hexDigit?_of_mem second, hexDigit?_of_mem third,
      hexDigit?_of_mem fourth]

/-- The code of a character is that of no surrogate. -/
theorem not_surrogate (c : Char) : c.toNat < 0xD800 ∨ 0xDFFF < c.toNat := by
  have := c.valid
  simp only [UInt32.isValidChar, Nat.isValidChar] at this
  simp only [Char.toNat]
  omega

theorem unicodeEscape_code {digits : List Char} {c : Char} (h : SpelledCode digits c.toNat)
    (rest : List Char) : unicodeEscape (digits ++ rest) = .ok (c, rest) := by
  have hlow : ¬ (0xDC00 ≤ c.toNat ∧ c.toNat ≤ 0xDFFF) := by
    have := not_surrogate c
    omega
  have hhigh : c.toNat < 0xD800 ∨ 0xDBFF < c.toNat := by
    have := not_surrogate c
    omega
  simp [unicodeEscape, hexEscape_spelled h, bind, Except.bind, pure, Except.pure, hlow, hhigh]

theorem unicodeEscape_pair {digits digits' : List Char} {high low : Nat} {c : Char}
    (h : SpelledCode digits high) (h' : SpelledCode digits' low)
    (isHigh : 0xD800 ≤ high ∧ high ≤ 0xDBFF) (isLow : 0xDC00 ≤ low ∧ low ≤ 0xDFFF)
    (value : c.toNat = (high - 0xD800) * 0x400 + (low - 0xDC00) + 0x10000) (rest : List Char) :
    unicodeEscape (digits ++ ('\\' :: 'u' :: (digits' ++ rest))) = .ok (c, rest) := by
  have hlow : ¬ (0xDC00 ≤ high ∧ high ≤ 0xDFFF) := by omega
  have hhigh : ¬ (high < 0xD800 ∨ 0xDBFF < high) := by omega
  simp [unicodeEscape, hexEscape_spelled h, hexEscape_spelled h', bind, Except.bind, pure,
    Except.pure, hlow, hhigh, isLow, ← value]

theorem stringUnit_short {e c : Char} (h : (e, c) ∈ shortEscapes) (rest : List Char) :
    stringUnit ('\\' :: e :: rest) = .ok (some c, rest) := by
  simp only [shortEscapes, List.mem_cons, Prod.mk.injEq, List.not_mem_nil, or_false] at h
  rcases h with ⟨rfl, rfl⟩ | ⟨rfl, rfl⟩ | ⟨rfl, rfl⟩ | ⟨rfl, rfl⟩ | ⟨rfl, rfl⟩ | ⟨rfl, rfl⟩ |
    ⟨rfl, rfl⟩ | ⟨rfl, rfl⟩ <;> rfl

theorem stringUnit_spelled {written : List Char} {c : Char} (h : SpelledChar written c)
    (rest : List Char) : stringUnit (written ++ rest) = .ok (some c, rest) := by
  cases h with
  | plain h =>
    simp only [isPlain, Bool.and_eq_true, decide_eq_true_eq, bne_iff_ne] at h
    obtain ⟨⟨hvisible, hquote⟩, hbackslash⟩ := h
    simp [stringUnit, hbackslash, Nat.not_lt.mpr hvisible]
  | short escape => exact stringUnit_short escape rest
  | code spelled => simp [stringUnit, unicodeEscape_code spelled, Except.map]
  | pair spelled spelled' isHigh isLow value =>
    simp [stringUnit, unicodeEscape_pair spelled spelled' isHigh isLow value, Except.map]

/-- A string is read up to its closing quote, whatever is escaped in it. -/
theorem stringUnits_spelled {written content : List Char} (h : SpelledText written content)
    {fuel : Nat} (hfuel : content.length < fuel) (rest : List Char) :
    stringUnits fuel (written ++ '"' :: rest) = .ok (content, rest) := by
  induction h generalizing fuel with
  | nil =>
    obtain ⟨fuel, rfl⟩ := Nat.exists_eq_add_one_of_ne_zero (Nat.ne_zero_of_lt hfuel)
    rfl
  | cons first others ih =>
    obtain ⟨fuel, rfl⟩ := Nat.exists_eq_add_one_of_ne_zero (Nat.ne_zero_of_lt hfuel)
    rw [List.append_assoc, stringUnits, stringUnit_spelled first]
    simp [bind, Except.bind, pure, Except.pure, ih (Nat.lt_of_succ_lt_succ hfuel)]

/-! ## Numbers -/

/-- Taking a digit into a number does not make it smaller. -/
theorem le_foldl_digits (digits : List Char) (n : Nat) :
    n ≤ digits.foldl (fun n c => n * 10 + (c.toNat - '0'.toNat)) n := by
  induction digits generalizing n with
  | nil => exact Nat.le_refl n
  | cons c rest ih =>
    have := ih (n * 10 + (c.toNat - '0'.toNat))
    rw [List.foldl_cons]
    omega

theorem takeDigits_append {digits rest : List Char}
    (hdigits : ∀ c ∈ digits, isDecimalDigit c = true)
    (hrest : ∀ c ∈ rest.head?, isDecimalDigit c = false) {n : Nat}
    (hsize : digits.foldl (fun n c => n * 10 + (c.toNat - '0'.toNat)) n < UInt64.size) :
    takeDigits n (digits ++ rest) =
      (digits.foldl (fun n c => n * 10 + (c.toNat - '0'.toNat)) n, rest) := by
  induction digits generalizing n with
  | nil =>
    cases rest with
    | nil => rfl
    | cons c rest => simp [takeDigits, hrest c rfl]
  | cons c digits ih =>
    obtain ⟨hc, hdigits⟩ := List.forall_mem_cons.mp hdigits
    rw [List.foldl_cons] at hsize ⊢
    have hbelow := Nat.lt_of_le_of_lt (le_foldl_digits digits _) hsize
    rw [List.cons_append, takeDigits, if_pos hc]
    simp only [hbelow, if_true]
    exact ih hdigits hsize

/-- A number is taken to its end. -/
theorem takeDigits_toDigits {n : Nat} (hsize : n < UInt64.size) {rest : List Char}
    (hrest : ∀ c ∈ rest.head?, isDecimalDigit c = false) :
    takeDigits 0 (Nat.toDigits 10 n ++ rest) = (n, rest) := by
  have hvalue := decimalValue_toDigits n
  rw [decimalValue] at hvalue
  rw [takeDigits_append (fun c => isDecimalDigit_of_mem_toDigits) hrest (by rwa [hvalue]), hvalue]

/-- Behind a leading zero there is nothing. -/
theorem eq_nil_of_toDigits {n : Nat} {tail : List Char} (h : Nat.toDigits 10 n = '0' :: tail) :
    tail = [] := by
  by_contra hne
  -- otherwise the tail would write the same number in fewer digits
  have hdigits : ∀ c ∈ Nat.toDigits 10 n, isDecimalDigit c = true :=
    fun c => isDecimalDigit_of_mem_toDigits
  have hvalue : decimalValue tail = n := by
    rw [← decimalValue_toDigits n, h]
    rfl
  have hlength := utf8Length_toString_le hne
    (fun c hc => hdigits c (h ▸ List.mem_cons_of_mem _ hc))
    ((decimalValue_eq_ofDigits tail).symm.trans hvalue)
  rw [Nat.toString_eq_repr, Nat.repr_eq_ofList_toDigits, utf8Length_ofList, h] at hlength
  have : '0'.utf8Size = 1 := rfl
  rw [byteLength_cons] at hlength
  omega

theorem readNumber_toDigits {n : Nat} (hsize : n < UInt64.size) {rest : List Char}
    (hends : Ends rest) : readNumber false (Nat.toDigits 10 n ++ rest) = .ok (.int n, rest) := by
  have hrest : ∀ c ∈ rest.head?, isDecimalDigit c = false := fun c hc => (hends c hc).1
  have htake := takeDigits_toDigits hsize hrest
  have hdigits : ∀ c ∈ Nat.toDigits 10 n, isDecimalDigit c = true :=
    fun c => isDecimalDigit_of_mem_toDigits
  obtain ⟨htaken, hdropped⟩ := @takeWhile_append_stop _ [] rest (by simp) hrest
  rw [List.nil_append] at htaken hdropped
  cases hcons : Nat.toDigits 10 n with
  | nil => exact absurd hcons Nat.toDigits_ne_nil
  | cons c tail =>
    rw [hcons] at htake hdigits
    have hzero : ¬ (c = '0' ∧ ((tail ++ rest).head?.map isDecimalDigit).getD false = true) := by
      rintro ⟨rfl, hnext⟩
      rw [eq_nil_of_toDigits hcons, List.nil_append] at hnext
      cases rest with
      | nil => simp at hnext
      | cons d rest => simp [hrest d rfl] at hnext
    rw [List.cons_append] at htake ⊢
    rw [readNumber, if_neg (by simp [hdigits c List.mem_cons_self]), if_neg hzero, htake]
    simp only [htaken, hdropped]
    cases rest with
    | nil => rfl
    | cons d rest =>
      obtain ⟨-, hpoint, hlower, hupper⟩ := hends d rfl
      simp [hpoint, hlower, hupper, integerNumber, Except.map]

/-! ## Readers -/

/-- A reader comes to a result on every text of a value, whatever stands behind it, and takes this
text alone. -/
def Reads {β : Type} (read : Reader β) (value : Json) (b : β) : Prop :=
  ∀ chars rest, Spells chars value → Ends rest → read (chars ++ rest) = .ok (b, rest)

namespace Reader

variable {β γ : Type}

theorem bind_eq {read : Reader β} {chars rest : List Char} {b : β}
    (h : read chars = .ok (b, rest)) (f : β → Reader γ) : (read >>= f) chars = f b rest := by
  simp [bind, StateT.bind, Except.bind, h]

theorem pure_eq (b : β) (chars : List Char) : (pure b : Reader β) chars = .ok (b, chars) := rfl

theorem get_eq (chars : List Char) : (get : Reader (List Char)) chars = .ok (chars, chars) := rfl

theorem peek_eq {blanks : List Char} (blank : Blank blanks) {c : Char}
    (hc : isJsonBlank c = false) (rest : List Char) :
    peek (blanks ++ c :: rest) = .ok (some c, c :: rest) := by
  have hdropped : (blanks ++ c :: rest).dropWhile isJsonBlank = c :: rest := by
    rw [List.dropWhile_append_of_pos blank]
    simp [hc]
  simp [peek, hdropped]

theorem peekValue_eq {blanks : List Char} (blank : Blank blanks) {c : Char}
    (hc : isJsonBlank c = false) (rest : List Char) :
    peekValue (blanks ++ c :: rest) = .ok (c, c :: rest) := by
  rw [peekValue, bind_eq (peek_eq blank hc rest)]
  rfl

theorem eat_cons (c : Char) (rest : List Char) : eat (c :: rest) = .ok ((), rest) := rfl

theorem stringBody_spelled {written content : List Char} (h : SpelledText written content)
    (rest : List Char) :
    stringBody (written ++ '"' :: rest) = .ok (String.ofList content, rest) := by
  have hfuel : content.length < (written ++ '"' :: rest).length + 1 := by
    have := h.length_le
    simp only [List.length_append, List.length_cons]
    omega
  rw [stringBody, stringUnits_spelled h hfuel]
  rfl

theorem reads_string (expected : String) (s : String) : Reads (string expected) (.string s) s := by
  rintro chars rest (_ | _ | ⟨blank, spelled⟩) -
  simp only [List.append_assoc, List.cons_append, List.nil_append]
  rw [string, bind_eq (peekValue_eq blank rfl _)]
  exact stringBody_spelled spelled rest

theorem reads_word {n : Nat} (hsize : n < UInt64.size) : Reads word (.number (.int n)) n := by
  intro chars rest h hends
  cases h with
  | @number blanks blank =>
    have hread : number false (Nat.toDigits 10 n ++ rest) = .ok (.int n, rest) :=
      readNumber_toDigits hsize hends
    have hdigits : ∀ c ∈ Nat.toDigits 10 n, isDecimalDigit c = true :=
      fun c => isDecimalDigit_of_mem_toDigits
    cases hcons : Nat.toDigits 10 n with
    | nil => exact absurd hcons Nat.toDigits_ne_nil
    | cons c tail =>
      rw [hcons] at hread hdigits
      have hdigit := hdigits c List.mem_cons_self
      have hsign : c ≠ '-' := by
        rintro rfl
        exact absurd hdigit (by decide)
      rw [List.append_assoc, List.cons_append, word,
        bind_eq (peekValue_eq blank (isJsonBlank_of_isDecimalDigit hdigit) _), if_neg hsign,
        if_pos hdigit, ← List.cons_append, bind_eq hread]
      simp [ofNumber, pure_eq]

theorem reads_optional_null (read : Reader β) : Reads (optional read) .null none := by
  rintro chars rest (⟨blank⟩ | _) -
  rw [List.append_assoc, optional, List.cons_append, bind_eq (peek_eq blank rfl _)]
  rfl

theorem reads_optional_some {read : Reader β} {value : Json} {b : β} (h : Reads read value b)
    (hvalue : value ≠ .null) : Reads (optional read) value (some b) := by
  intro chars rest hspelled hends
  obtain ⟨blanks, c, more, rfl, blank, trimmed, hblank, -, hnull⟩ := hspelled.exists_trimmed
  rw [List.append_assoc, optional, List.cons_append, bind_eq (peek_eq blank hblank _)]
  have hc : c ≠ 'n' := fun hc => hvalue (hnull hc)
  have hread := bind_eq (h _ rest trimmed hends) fun b => pure (some b)
  simpa [hc, pure_eq] using hread

theorem reads_choice {choices : Choices β} {name : String} {b : β}
    (h : choices.choose name = .ok b) : Reads (choice choices) (.string name) b := by
  rintro chars rest (_ | _ | ⟨blank, spelled⟩) -
  simp only [List.append_assoc, List.cons_append, List.nil_append]
  rw [choice, bind_eq (peekValue_eq blank rfl _)]
  refine (bind_eq (stringBody_spelled spelled rest) _).trans ?_
  rw [choose, h]
  rfl

/-! ### Going through arrays and objects -/

theorem nextElement_close (isFirst : Bool) {blanks : List Char} (blank : Blank blanks)
    (rest : List Char) :
    nextElement isFirst (blanks ++ ']' :: rest) = .ok (false, ']' :: rest) := by
  rw [nextElement, bind_eq (peek_eq blank rfl rest)]
  rfl

/-- An item that comes next is found behind what separates it from those before it. -/
theorem nextElement_spelled {isFirst : Bool} {separator written : List Char} {item : Json}
    (separates : Separator isFirst separator) (h : Spells written item) :
    ∃ trimmed, Spells trimmed item ∧
      ∀ rest,
        nextElement isFirst (separator ++ (written ++ rest)) = .ok (true, trimmed ++ rest) := by
  obtain ⟨blanks, c, more, rfl, blank, trimmed, hblank, hclose, -⟩ := h.exists_trimmed
  refine ⟨c :: more, trimmed, fun rest => ?_⟩
  rw [List.append_assoc, List.cons_append]
  cases separates with
  | first =>
    rw [List.nil_append, nextElement, bind_eq (peek_eq blank hblank _)]
    simp [pure_eq]
  | comma before =>
    rw [List.append_assoc, List.singleton_append, nextElement, bind_eq (peek_eq before rfl _)]
    simp [bind_eq (eat_cons _ _), bind_eq (peek_eq blank hblank _), pure_eq]

theorem closeArray_eq {blanks : List Char} (blank : Blank blanks) (rest : List Char) :
    closeArray (blanks ++ ']' :: rest) = .ok ((), rest) := by
  rw [closeArray, bind_eq (peek_eq blank rfl rest)]
  rfl

theorem nextKey_close (isFirst : Bool) {blanks : List Char} (blank : Blank blanks)
    (rest : List Char) :
    nextKey isFirst (blanks ++ '\x7d' :: rest) = .ok (none, '\x7d' :: rest) := by
  rw [nextKey, bind_eq (peek_eq blank rfl rest)]
  rfl

/-- A key that comes next is read behind what separates it from the members before it. -/
theorem nextKey_spelled {isFirst : Bool} {separator written : List Char} {key : String}
    (separates : Separator isFirst separator) (h : Spells written (.string key))
    (rest : List Char) :
    nextKey isFirst (separator ++ (written ++ rest)) = .ok (some key, rest) := by
  obtain _ | _ | ⟨blank, spelled⟩ := h
  simp only [List.append_assoc, List.cons_append, List.nil_append]
  have hread := bind_eq (stringBody_spelled spelled rest) fun key => pure (some key)
  cases separates with
  | first =>
    rw [List.nil_append, nextKey, bind_eq (peek_eq blank rfl _)]
    exact hread
  | comma before =>
    rw [List.append_assoc, List.singleton_append, nextKey, bind_eq (peek_eq before rfl _)]
    simpa [bind_eq (eat_cons _ _), bind_eq (peek_eq (c := '"') blank rfl _), pure_eq] using hread

theorem colon_eq {blanks : List Char} (blank : Blank blanks) (rest : List Char) :
    colon (blanks ++ ':' :: rest) = .ok ((), rest) := by
  rw [colon, bind_eq (peek_eq blank rfl rest)]
  rfl

theorem finish_eq {blanks : List Char} (blank : Blank blanks) : finish blanks = .ok ((), []) := by
  have hdropped : blanks.dropWhile isJsonBlank = [] := List.dropWhile_eq_nil_iff.mpr blank
  have hpeek : peek blanks = .ok (none, []) := by simp [peek, hdropped]
  rw [finish, bind_eq hpeek]
  rfl

/-! ### Arrays of strings -/

theorem stringElements_spelled {isFirst : Bool} {chars : List Char} {items : List String}
    (h : SpellsItems isFirst chars (items.map .string)) {fuel : Nat} (hfuel : items.length < fuel)
    (rest : List Char) :
    stringElements fuel isFirst (chars ++ rest) = .ok (items, ']' :: rest) := by
  -- Induction on the items, behind whatever separates the first of them from others.
  induction items generalizing isFirst chars fuel with
  | nil =>
    obtain ⟨fuel, rfl⟩ := Nat.exists_eq_add_one_of_ne_zero (Nat.ne_zero_of_lt hfuel)
    obtain ⟨blank⟩ | _ := h
    rw [List.append_assoc, stringElements]
    exact bind_eq (nextElement_close isFirst blank rest) _
  | cons item items ih =>
    obtain ⟨fuel, rfl⟩ := Nat.exists_eq_add_one_of_ne_zero (Nat.ne_zero_of_lt hfuel)
    obtain _ | ⟨separates, spelled, others⟩ := h
    obtain ⟨trimmed, hspelled, hnext⟩ := nextElement_spelled separates spelled
    rw [List.append_assoc, List.append_assoc, stringElements, bind_eq (hnext _), if_pos rfl,
      bind_eq (reads_string _ item _ _ hspelled (others.ends rest)),
      bind_eq (ih others (Nat.lt_of_succ_lt_succ hfuel))]
    rfl

theorem reads_strings (items : List String) :
    Reads strings (.array (items.map .string)) items := by
  rintro chars rest (_ | _ | _ | @⟨blanks, written, _, blank, spelled⟩) -
  have hfuel : items.length < (written ++ rest).length + 1 := by
    have := spelled.length_lt
    rw [List.length_map] at this
    rw [List.length_append]
    omega
  rw [List.append_assoc, List.cons_append, strings, bind_eq (peekValue_eq blank rfl _)]
  simp only [bind_eq (eat_cons _ _), bind_eq (get_eq _),
    bind_eq (stringElements_spelled spelled hfuel rest)]
  exact bind_eq (closeArray_eq blank_nil rest) _

end Reader

/-- What is made of the value that is read does not depend on its text either. -/
theorem Reads.bind_pure {β γ : Type} {read : Reader β} {value : Json} {b : β}
    (h : Reads read value b) {f : β → γ} {c : γ} (hf : f b = c) :
    Reads (read >>= fun b => pure (f b)) value c := by
  intro chars rest spelled hends
  rw [Reader.bind_eq (h chars rest spelled hends), hf]
  rfl

end RecordCipher
