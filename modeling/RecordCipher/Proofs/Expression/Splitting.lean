import Mathlib.Data.List.TakeWhile
import Mathlib.Data.Nat.Digits.Defs
import RecordCipher.Proofs.Computation
import RecordCipher.Proofs.Expression.Lexing

/-!
# Splitting a text into lexemes

A text falls apart into lexemes as they are written, with blanks between them. A lexeme that is
followed by a character it could go on with would be a longer one, so that a name or a number is
only written where it ends. This leaves at most one way to split a text, and lexing finds it or
fails.

## Main definitions

* `Unescapes`, `Lexeme.Written`: how lexemes are written
* `Lexeme.EndsBefore`: what can stand behind a lexeme
* `Piece`, `Splits`, `tokensFrom`: a text in pieces, and their tokens

## Main results

* `written_of_scan`, `scan_of_written`: reading one lexeme, where it ends
* `Cursor.next_eq_ok_iff`, `Cursor.tokens_eq_ok_iff`: reading one token, and all of them
* `tokenize_eq_ok_iff`: the tokens of a text are those of its one split
-/

namespace RecordCipher

/-! ## How lexemes are written -/

/-- What stands between two quotes, and the content it denotes: a character stands for itself
unless it is the quote or a backslash, and a backslash stands for the character behind it. -/
inductive Unescapes (quote : Char) : List Char → List Char → Prop where
  /-- Nothing. -/
  | nil : Unescapes quote [] []
  /-- A character that stands for itself. -/
  | plain {c : Char} {body content : List Char} (ne_quote : c ≠ quote) (ne_backslash : c ≠ '\\')
    (rest : Unescapes quote body content) : Unescapes quote (c :: body) (c :: content)
  /-- A backslash and the character it stands for. -/
  | escaped {c : Char} {body content : List Char} (rest : Unescapes quote body content) :
    Unescapes quote ('\\' :: c :: body) (c :: content)

/-- How lexemes are written. -/
inductive Lexeme.Written : Lexeme → List Char → Prop where
  /-- The root is a dollar sign. -/
  | root : Written .root ['$']
  /-- A dot. -/
  | dot : Written .dot ['.']
  /-- An opening bracket. -/
  | openBracket : Written .openBracket ['[']
  /-- A closing bracket. -/
  | closeBracket : Written .closeBracket [']']
  /-- The wildcard is an asterisk. -/
  | wildcard : Written .wildcard ['*']
  /-- A quoted text stands between two quotes of one kind. -/
  | quoted {quote : Char} {body content : List Char} (isQuote : quote = '\'' ∨ quote = '"')
    (unescapes : Unescapes quote body content) :
    Written (.quoted (String.ofList content)) (quote :: (body ++ [quote]))
  /-- A number is written in decimal digits, the most significant one first. -/
  | number {digits : List Char} {value : Nat} (ne_nil : digits ≠ [])
    (areDigits : ∀ c ∈ digits, isDecimalDigit c = true)
    (value_eq : Nat.ofDigits 10 (digits.map fun c => c.toNat - 0x30).reverse = value)
    (bound : value < 2 ^ 64) : Written (.number value) digits
  /-- A bare name is a letter or an underscore, and then letters, digits and underscores. -/
  | name {c : Char} {parts : List Char} (start : isIdentifierStart c = true)
    (areParts : ∀ d ∈ parts, isIdentifierPart d = true) :
    Written (.name (String.ofList (c :: parts))) (c :: parts)

/-- A lexeme ends before some characters: a name where it could not go on, and so does a
number. -/
def Lexeme.EndsBefore : Lexeme → List Char → Prop
  | .name _, behind => ∀ c ∈ behind.head?, isIdentifierPart c = false
  | .number _, behind => ∀ c ∈ behind.head?, isDecimalDigit c = false
  | _, _ => True

/-- Every lexeme ends before a blank. -/
theorem Lexeme.endsBefore_of_isBlank {lexeme : Lexeme} {behind : List Char}
    (h : ∀ c ∈ behind.head?, isBlank c = true) : lexeme.EndsBefore behind := by
  have hpart : ∀ c ∈ behind.head?, isIdentifierPart c = false :=
    fun c hc => isIdentifierPart_of_isBlank (h c hc)
  cases lexeme with
  | name _ => exact hpart
  | number _ =>
    -- where a name could not go on, neither could a number
    exact fun c hc => Bool.eq_false_iff.mpr
      (mt isIdentifierPart_of_isDecimalDigit (Bool.eq_false_iff.mp (hpart c hc)))
  | _ => trivial

/-- A bare name is written as its characters, if it can stand bare. -/
theorem Lexeme.written_name_iff {name : String} {chars : List Char} :
    (Lexeme.name name).Written chars ↔ isIdentifier name = true ∧ chars = name.toList := by
  constructor
  · intro h
    cases h with
    | @name c parts start areParts =>
      have hchars : (String.ofList (c :: parts)).toList = c :: parts := String.toList_ofList
      exact ⟨isIdentifier_iff.mpr ⟨c, parts, hchars, start, areParts⟩, hchars.symm⟩
  · rintro ⟨hname, rfl⟩
    obtain ⟨c, parts, hchars, start, areParts⟩ := isIdentifier_iff.mp hname
    have hwritten := Lexeme.Written.name start areParts
    rwa [← hchars, String.ofList_toList] at hwritten

/-! ## Reading one lexeme -/

/-- The value of decimal digits in the order they are written. -/
theorem decimalValue_eq_ofDigits (digits : List Char) :
    decimalValue digits = Nat.ofDigits 10 (digits.map fun c => c.toNat - 0x30).reverse := by
  rw [decimalValue, Nat.ofDigits_eq_foldr, List.foldr_reverse, List.foldl_map]
  have step : (fun n (c : Char) => n * 10 + (c.toNat - '0'.toNat)) =
      fun n c => ((c.toNat - 0x30 : ℕ) : ℕ) + 10 * n := by
    funext n c
    show n * 10 + (c.toNat - 0x30) = _
    omega
  rw [step]
  rfl

/-- What is dropped while a condition holds ends where it does not hold any more. -/
theorem head?_dropWhile (p : Char → Bool) (chars : List Char) :
    ∀ c ∈ (chars.dropWhile p).head?, p c = false := by
  intro c hc
  have hstop := List.head?_dropWhile_not p chars
  rwa [Option.mem_def.mp hc] at hstop

/-! What is read of a quoted text depends on its first character. -/

theorem readQuoted_close (quote : Char) (rest : List Char) :
    readQuoted quote (quote :: rest) = (some [], quote.utf8Size, rest) := by
  rw [readQuoted.eq_def]
  simp

theorem readQuoted_pair {quote : Char} (hquote : quote ≠ '\\') (c : Char) (rest : List Char) :
    readQuoted quote ('\\' :: c :: rest) =
      ((readQuoted quote rest).1.map (c :: ·),
        '\\'.utf8Size + c.utf8Size + (readQuoted quote rest).2.1,
        (readQuoted quote rest).2.2) := by
  rw [readQuoted.eq_def]
  simp [hquote.symm]

theorem readQuoted_plain {quote c : Char} (hquote : c ≠ quote) (hbackslash : c ≠ '\\')
    (rest : List Char) :
    readQuoted quote (c :: rest) =
      ((readQuoted quote rest).1.map (c :: ·), c.utf8Size + (readQuoted quote rest).2.1,
        (readQuoted quote rest).2.2) := by
  rw [readQuoted.eq_def]
  simp [hquote, hbackslash]

/-- Reading goes up to the closing quote, which is the first one that does not stand behind the
backslash of a pair. -/
theorem readQuoted_eq_some_iff {quote : Char} (hquote : quote ≠ '\\')
    {chars content behind : List Char} {size : Nat} :
    readQuoted quote chars = (some content, size, behind) ↔
      ∃ body, chars = body ++ quote :: behind ∧ Unescapes quote body content ∧
        size = byteLength (body ++ [quote]) := by
  constructor
  · intro h
    -- Induction as the characters are read: two at a time behind a backslash.
    induction chars using readQuoted.induct quote generalizing content size with
    | case1 => simp [readQuoted] at h
    | case2 rest =>
      rw [readQuoted_close] at h
      cases h
      exact ⟨[], rfl, .nil, rfl⟩
    | case3 => simp [readQuoted, hquote.symm] at h
    | case4 c rest inner used after hread _ ih =>
      rw [readQuoted_pair hquote, hread, Prod.mk.injEq, Prod.mk.injEq,
        Option.map_eq_some_iff] at h
      obtain ⟨⟨inner, rfl, rfl⟩, rfl, rfl⟩ := h
      obtain ⟨body, rfl, hbody, rfl⟩ := ih hread
      exact ⟨'\\' :: c :: body, rfl, .escaped hbody, by simp [byteLength]; omega⟩
    | case5 c rest hne hbackslash inner used after hread ih =>
      rw [readQuoted_plain hne hbackslash, hread, Prod.mk.injEq, Prod.mk.injEq,
        Option.map_eq_some_iff] at h
      obtain ⟨⟨inner, rfl, rfl⟩, rfl, rfl⟩ := h
      obtain ⟨body, rfl, hbody, rfl⟩ := ih hread
      exact ⟨c :: body, rfl, .plain hne hbackslash hbody, rfl⟩
  · rintro ⟨body, rfl, hbody, rfl⟩
    induction hbody with
    | nil => exact readQuoted_close quote behind
    | plain ne_quote ne_backslash _ ih =>
      rw [List.cons_append, readQuoted_plain ne_quote ne_backslash, ih]
      rfl
    | escaped _ ih =>
      rw [List.cons_append, List.cons_append, readQuoted_pair hquote, ih]
      simp [byteLength]
      omega

/-- What is scanned is a lexeme as it is written, and ends before what is behind it. -/
theorem written_of_scan {c : Char} {rest behind : List Char} {lexeme : Lexeme} {size : Nat}
    (h : scan c rest = ⟨.ok lexeme, size, behind⟩) :
    ∃ chars, c :: rest = chars ++ behind ∧ lexeme.Written chars ∧ lexeme.EndsBefore behind ∧
      size = byteLength chars := by
  unfold scan at h
  -- the signs come first, one after the other
  split at h
  · next hc => cases h; exact ⟨['$'], by simp [hc], .root, trivial, rfl⟩
  split at h
  · next hc => cases h; exact ⟨['.'], by simp [hc], .dot, trivial, rfl⟩
  split at h
  · next hc => cases h; exact ⟨['['], by simp [hc], .openBracket, trivial, rfl⟩
  split at h
  · next hc => cases h; exact ⟨[']'], by simp [hc], .closeBracket, trivial, rfl⟩
  split at h
  · next hc => cases h; exact ⟨['*'], by simp [hc], .wildcard, trivial, rfl⟩
  split at h
  · next hquote =>
    obtain ⟨hne, hsize⟩ : c ≠ '\\' ∧ c.utf8Size = 1 := by
      rcases hquote with rfl | rfl <;> decide
    rcases hread : readQuoted c rest with ⟨_ | content, used, after⟩ <;>
      simp only [hread] at h <;> cases h
    obtain ⟨body, rfl, hbody, rfl⟩ := (readQuoted_eq_some_iff hne).mp hread
    exact ⟨c :: (body ++ [c]), by simp, .quoted hquote hbody, trivial, by simp [byteLength, hsize]⟩
  split at h
  · next hdigit =>
    dsimp only at h
    split at h
    · next hbound =>
      cases h
      refine ⟨c :: rest.takeWhile isDecimalDigit, ?_, .number (List.cons_ne_nil _ _) ?_
        (decimalValue_eq_ofDigits _).symm hbound, head?_dropWhile _ _, rfl⟩
      · rw [List.cons_append, List.takeWhile_append_dropWhile]
      · exact List.forall_mem_cons.mpr ⟨hdigit, fun _ => List.mem_takeWhile_imp⟩
    · cases h
  split at h
  · next hstart =>
    cases h
    refine ⟨c :: rest.takeWhile isIdentifierPart, ?_,
      .name hstart fun _ => List.mem_takeWhile_imp, head?_dropWhile _ _, rfl⟩
    rw [List.cons_append, List.takeWhile_append_dropWhile]
  · cases h

/-- A lexeme as it is written is scanned where it ends. -/
theorem scan_of_written {c : Char} {rest chars behind : List Char} {lexeme : Lexeme}
    (hwritten : lexeme.Written chars) (hends : lexeme.EndsBefore behind)
    (hchars : c :: rest = chars ++ behind) :
    scan c rest = ⟨.ok lexeme, byteLength chars, behind⟩ := by
  cases hwritten with
  | @quoted quote body content isQuote unescapes =>
    obtain ⟨rfl, hrest⟩ : c = quote ∧ rest = body ++ quote :: behind := by simpa using hchars
    have hne : c ≠ '\\' := by
      rcases isQuote with rfl | rfl <;> decide
    have hread : readQuoted c rest = (some content, byteLength (body ++ [c]), behind) :=
      (readQuoted_eq_some_iff hne).mpr ⟨body, hrest, unescapes, rfl⟩
    rcases isQuote with rfl | rfl <;> simp [scan, hread, byteLength] <;> rfl
  | @number _ value ne_nil areDigits value_eq bound =>
    cases chars with
    | nil => exact absurd rfl ne_nil
    | cons digit more =>
      obtain ⟨rfl, rfl⟩ : c = digit ∧ rest = more ++ behind := by simpa using hchars
      obtain ⟨hfirst, hmore⟩ := List.forall_mem_cons.mp areDigits
      obtain ⟨htake, hdrop⟩ := takeWhile_append_stop hmore hends
      rw [← decimalValue_eq_ofDigits] at value_eq
      rw [scan_digits hfirst, htake, hdrop, value_eq, if_pos (show value < wordSize from bound)]
  | @name first parts start areParts =>
    obtain ⟨rfl, rfl⟩ : c = first ∧ rest = parts ++ behind := by simpa using hchars
    obtain ⟨htake, hdrop⟩ := takeWhile_append_stop areParts hends
    rw [scan_identifier start, htake, hdrop]
  | _ =>
    obtain ⟨rfl, rfl⟩ : _ ∧ _ := by simpa using hchars
    rfl

/-- A lexeme starts with a character that is not blank. -/
theorem Lexeme.Written.exists_cons {lexeme : Lexeme} {chars : List Char}
    (h : lexeme.Written chars) : ∃ c rest, chars = c :: rest ∧ isBlank c = false := by
  cases h with
  | quoted isQuote _ =>
    rcases isQuote with rfl | rfl <;> exact ⟨_, _, rfl, rfl⟩
  | number ne_nil areDigits _ _ =>
    cases chars with
    | nil => exact absurd rfl ne_nil
    | cons c rest =>
      exact ⟨c, rest, rfl, isBlank_of_isDecimalDigit (areDigits c List.mem_cons_self)⟩
  | name start _ => exact ⟨_, _, rfl, isBlank_of_isIdentifierStart start⟩
  | _ => exact ⟨_, _, rfl, rfl⟩

/-! ## Texts in pieces -/

/-- A lexeme as it is written, and the blanks before it. -/
@[ext] structure Piece where
  /-- The blanks before the lexeme. -/
  blanks : List Char
  /-- The lexeme as it is written. -/
  chars : List Char
  /-- The lexeme. -/
  lexeme : Lexeme
  areBlank : ∀ c ∈ blanks, isBlank c = true
  written : lexeme.Written chars

/-- Characters are those of pieces, one after the other, and of blanks behind the last of them;
each lexeme ends before what is behind it. -/
def Splits : List Piece → (trailing : List Char) → List Char → Prop
  | [], trailing, chars => chars = trailing ∧ ∀ c ∈ trailing, isBlank c = true
  | p :: pieces, trailing, chars => ∃ behind, chars = p.blanks ++ (p.chars ++ behind) ∧
      p.lexeme.EndsBefore behind ∧ Splits pieces trailing behind

/-- The lexemes of pieces from an offset on, each where its first character is. -/
def tokensFrom : (offset : Nat) → List Piece → List Token
  | _, [] => []
  | offset, p :: pieces =>
    ⟨p.lexeme, offset + byteLength p.blanks⟩ ::
      tokensFrom (offset + byteLength p.blanks + byteLength p.chars) pieces

/-- The blanks before a lexeme are all the blanks there are at the start. -/
theorem Piece.span_isBlank (p : Piece) (behind : List Char) :
    (p.blanks ++ (p.chars ++ behind)).takeWhile isBlank = p.blanks ∧
      (p.blanks ++ (p.chars ++ behind)).dropWhile isBlank = p.chars ++ behind := by
  obtain ⟨c, more, hchars, hblank⟩ := p.written.exists_cons
  apply takeWhile_append_stop p.areBlank
  simp [hchars, hblank]

namespace Cursor

variable {cursor behind : Cursor}

/-- At the end of a text there are only blanks. -/
theorem next_eq_none_iff :
    cursor.next.1 = none ↔ ∀ c ∈ cursor.rest, isBlank c = true := by
  rw [← List.dropWhile_eq_nil_iff]
  simp only [next, skipBlanks]
  cases cursor.rest.dropWhile isBlank <;> simp

/-- A token is read with the blanks before it, and the lexeme ends before what is left. -/
theorem next_eq_ok_iff {token : Token} : cursor.next = (some (.ok token), behind) ↔
    ∃ p : Piece, cursor.rest = p.blanks ++ (p.chars ++ behind.rest) ∧
      p.lexeme.EndsBefore behind.rest ∧
      token = ⟨p.lexeme, cursor.offset + byteLength p.blanks⟩ ∧
      behind.offset = cursor.offset + byteLength p.blanks + byteLength p.chars := by
  constructor
  · intro h
    simp only [next, skipBlanks] at h
    cases hdrop : cursor.rest.dropWhile isBlank with
    | nil => simp [hdrop] at h
    | cons c rest =>
      simp only [hdrop] at h
      rcases hscan : scan c rest with ⟨reason | lexeme, size, after⟩ <;>
        simp only [hscan] at h <;> cases h
      obtain ⟨chars, hchars, hwritten, hends, rfl⟩ := written_of_scan hscan
      refine ⟨⟨cursor.rest.takeWhile isBlank, chars, lexeme,
        fun _ => List.mem_takeWhile_imp, hwritten⟩, ?_, hends, rfl, rfl⟩
      rw [← hchars, ← hdrop, List.takeWhile_append_dropWhile]
  · rintro ⟨p, hrest, hends, rfl, hoffset⟩
    obtain ⟨c, more, hchars, -⟩ := p.written.exists_cons
    obtain ⟨htake, hdrop⟩ := p.span_isBlank behind.rest
    have hscan : scan c (more ++ behind.rest) =
        ⟨.ok p.lexeme, byteLength p.chars, behind.rest⟩ :=
      scan_of_written p.written hends (by rw [hchars, List.cons_append])
    rw [← hrest] at htake hdrop
    rw [hchars, List.cons_append] at hdrop
    simp only [next, skipBlanks, htake, hdrop, hscan, ← hoffset]

/-- There are fewer characters behind a lexeme than before it. -/
theorem shorter {p : Piece} {rest : List Char} {fuel : Nat}
    (hrest : cursor.rest = p.blanks ++ (p.chars ++ rest))
    (hfuel : cursor.rest.length < fuel + 1) : rest.length < fuel := by
  obtain ⟨c, more, hchars, -⟩ := p.written.exists_cons
  rw [hrest, hchars] at hfuel
  simp only [List.length_append, List.length_cons] at hfuel
  omega

/-- The tokens that are read are those of pieces into which the text splits. -/
theorem tokens_eq_ok_iff {fuel : Nat} (hfuel : cursor.rest.length < fuel) {tokens : List Token} :
    cursor.tokens fuel = .ok tokens ↔ ∃ pieces trailing,
      Splits pieces trailing cursor.rest ∧ tokensFrom cursor.offset pieces = tokens := by
  -- Induction on the fuel, from whatever place in the text; a token takes characters.
  induction fuel generalizing cursor tokens with
  | zero => omega
  | succ fuel ih =>
    constructor
    · intro h
      rcases hnext : cursor.next with ⟨_ | fault | token, behind⟩ <;>
        simp only [Cursor.tokens, hnext] at h
      · cases h
        exact ⟨[], cursor.rest, ⟨rfl, next_eq_none_iff.mp (by rw [hnext])⟩, rfl⟩
      · cases h
      · obtain ⟨others, hothers, htokens⟩ := bind_eq_ok_iff.mp h
        obtain rfl : token :: others = tokens := by simpa [pure, Except.pure] using htokens
        obtain ⟨p, hrest, hends, rfl, hoffset⟩ := next_eq_ok_iff.mp hnext
        obtain ⟨pieces, trailing, hsplits, rfl⟩ := (ih (shorter hrest hfuel)).mp hothers
        exact ⟨p :: pieces, trailing, ⟨behind.rest, hrest, hends, hsplits⟩,
          by rw [tokensFrom, hoffset]⟩
    · rintro ⟨_ | ⟨p, pieces⟩, trailing, hsplits, rfl⟩
      · have hnone : cursor.next.1 = none := next_eq_none_iff.mpr (hsplits.1 ▸ hsplits.2)
        rcases hnext : cursor.next with ⟨outcome, behind⟩
        obtain rfl : outcome = none := by rwa [hnext] at hnone
        simp only [Cursor.tokens, hnext, tokensFrom]
      · obtain ⟨behind, hrest, hends, hsplits⟩ := hsplits
        have hnext : cursor.next =
            (some (.ok ⟨p.lexeme, cursor.offset + byteLength p.blanks⟩),
              ⟨behind, cursor.offset + byteLength p.blanks + byteLength p.chars⟩) :=
          next_eq_ok_iff.mpr ⟨p, hrest, hends, rfl, rfl⟩
        have hothers : Cursor.tokens fuel
              ⟨behind, cursor.offset + byteLength p.blanks + byteLength p.chars⟩ =
            .ok (tokensFrom _ pieces) :=
          (ih (shorter hrest hfuel)).mpr ⟨pieces, trailing, hsplits, rfl⟩
        simp only [Cursor.tokens, hnext]
        exact bind_eq_ok_iff.mpr ⟨_, hothers, rfl⟩

end Cursor

/-! ## There is one split -/

/-- The first piece of a text is what is read from its start. -/
theorem Piece.unique {p p' : Piece} {behind behind' : List Char}
    (hends : p.lexeme.EndsBefore behind) (hends' : p'.lexeme.EndsBefore behind')
    (heq : p.blanks ++ (p.chars ++ behind) = p'.blanks ++ (p'.chars ++ behind')) :
    p = p' ∧ behind = behind' := by
  obtain ⟨htake, hdrop⟩ := p.span_isBlank behind
  obtain ⟨htake', hdrop'⟩ := p'.span_isBlank behind'
  have hblanks : p.blanks = p'.blanks := by rw [← htake, heq, htake']
  have hrest : p.chars ++ behind = p'.chars ++ behind' := by rw [← hdrop, heq, hdrop']
  -- the same is scanned for both
  obtain ⟨c, more, hchars, -⟩ := p.written.exists_cons
  have hcons : c :: (more ++ behind) = p.chars ++ behind := by rw [hchars, List.cons_append]
  have hscan := scan_of_written p.written hends hcons
  have hscan' := scan_of_written p'.written hends' (hcons.trans hrest)
  obtain ⟨hlexeme, -, rfl⟩ : p.lexeme = p'.lexeme ∧ byteLength p.chars = byteLength p'.chars ∧
      behind = behind' := by
    simpa using hscan.symm.trans hscan'
  exact ⟨Piece.ext hblanks (List.append_cancel_right hrest) hlexeme, rfl⟩

/-- Characters split in one way at most. -/
theorem Splits.unique {pieces pieces' : List Piece} {trailing trailing' chars : List Char}
    (h : Splits pieces trailing chars) (h' : Splits pieces' trailing' chars) :
    pieces = pieces' ∧ trailing = trailing' := by
  -- Induction on the pieces of one split; the other one has the same first piece.
  induction pieces generalizing pieces' chars with
  | nil =>
    obtain ⟨rfl, blanks⟩ := h
    cases pieces' with
    | nil => exact ⟨rfl, h'.1⟩
    | cons p' pieces' =>
      obtain ⟨behind', rfl, -, -⟩ := h'
      obtain ⟨c, more, hchars, hblank⟩ := p'.written.exists_cons
      have hc := blanks c (by simp [hchars])
      simp [hblank] at hc
  | cons p pieces ih =>
    obtain ⟨behind, rfl, hends, hsplits⟩ := h
    cases pieces' with
    | nil =>
      obtain ⟨rfl, blanks⟩ := h'
      obtain ⟨c, more, hchars, hblank⟩ := p.written.exists_cons
      have hc := blanks c (by simp [hchars])
      simp [hblank] at hc
    | cons p' pieces' =>
      obtain ⟨behind', heq, hends', hsplits'⟩ := h'
      obtain ⟨rfl, rfl⟩ := Piece.unique hends hends' heq
      obtain ⟨rfl, rfl⟩ := ih hsplits hsplits'
      exact ⟨rfl, rfl⟩

/-- A text has tokens when it splits into lexemes, each as it is written and where it ends, with
nothing but blanks between them. It splits in one way at most, and the tokens are its lexemes in
their order, with the byte offsets at which they are written. -/
theorem tokenize_eq_ok_iff (text : String) :
    (∀ tokens, tokenize text = .ok tokens ↔ ∃ pieces trailing,
      Splits pieces trailing text.toList ∧ tokensFrom 0 pieces = tokens) ∧
    ∀ pieces trailing pieces' trailing', Splits pieces trailing text.toList →
      Splits pieces' trailing' text.toList → pieces = pieces' ∧ trailing = trailing' := by
  constructor
  · intro tokens
    exact Cursor.tokens_eq_ok_iff (Nat.lt_succ_self _)
  · intro pieces trailing pieces' trailing' h h'
    exact h.unique h'

/-- A number ends where a name begins, and offsets count bytes. -/
example : tokenize "2é2'it\\'s'" =
    .ok [⟨.number 2, 0⟩, ⟨.name "é2", 1⟩, ⟨.quoted "it's", 4⟩] := by
  decide +kernel

end RecordCipher
