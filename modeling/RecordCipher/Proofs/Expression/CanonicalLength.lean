import Mathlib.Algebra.Order.BigOperators.Group.List
import RecordCipher.Proofs.Expression.Canonical
import RecordCipher.Proofs.Expression.Splitting

/-!
# The length of canonical text

Canonical text leaves out blanks, leading zeros and the quotes of names that can stand bare, and
it escapes nothing that a text between single quotes could leave as it is. Only a name between
double quotes can get longer, by a backslash for each of its single quotes. The limits on texts
apply to canonical texts as well, so that an expression that is within the limits can have a
canonical text that is not.

## Main definitions

* `Lexeme.canonicalSize`: the bytes of a lexeme in canonical text
* `Lexeme.singleQuotes`: the characters of a lexeme that canonical text may have to escape
* `Expression.quotes`: expressions whose canonical texts are nearly twice as long as their texts

## Main results

* `Segment.utf8Length_canonical_le`: the canonical text of a segment is no longer than its lexemes
* `Lexeme.Written.canonicalSize_le`: how long the lexemes are in any text
* `Expression.parse_canonical`: the canonical text of an expression is one itself, unless it is
  too long; how long it can be
-/

namespace RecordCipher

/-! ## Bytes of texts -/

@[simp] theorem byteLength_nil : byteLength [] = 0 := rfl

@[simp] theorem byteLength_cons (c : Char) (rest : List Char) :
    byteLength (c :: rest) = c.utf8Size + byteLength rest := rfl

@[simp] theorem byteLength_append (front back : List Char) :
    byteLength (front ++ back) = byteLength front + byteLength back := by
  induction front with
  | nil => simp
  | cons c rest ih => simp [ih, Nat.add_assoc]

theorem length_le_byteLength (chars : List Char) : chars.length ≤ byteLength chars := by
  induction chars with
  | nil => exact Nat.le_refl 0
  | cons c rest ih =>
    have := c.utf8Size_pos
    simp only [List.length_cons, byteLength_cons]
    omega

theorem byteLength_of_isDecimalDigit {digits : List Char}
    (h : ∀ c ∈ digits, isDecimalDigit c = true) : byteLength digits = digits.length := by
  induction digits with
  | nil => rfl
  | cons c rest ih =>
    obtain ⟨hc, hrest⟩ := List.forall_mem_cons.mp h
    have hsize : c.utf8Size = 1 := by
      have := isDecimalDigit_iff.mp hc
      simp [Char.utf8Size, UInt32.le_iff_toNat_le]
      omega
    rw [byteLength_cons, hsize, ih hrest, List.length_cons, Nat.add_comm]

@[simp] theorem utf8Length_append (front back : String) :
    utf8Length (front ++ back) = utf8Length front + utf8Length back := by
  simp [utf8Length]

@[simp] theorem utf8Length_ofList (chars : List Char) :
    utf8Length (String.ofList chars) = byteLength chars := by
  simp [utf8Length]

theorem utf8Length_join (texts : List String) :
    utf8Length (String.join texts) = (texts.map utf8Length).sum := by
  rw [utf8Length, String.toList_join]
  induction texts with
  | nil => rfl
  | cons text rest ih => simp [ih, utf8Length]

/-- An escaped name is longer by the characters that have to be escaped. -/
theorem utf8Length_escapeName (name : String) :
    utf8Length (escapeName name) =
      utf8Length name + name.toList.count '\\' + name.toList.count '\'' := by
  have hbackslash : '\\'.utf8Size = 1 := rfl
  rw [escapeName, utf8Length_ofList, utf8Length]
  induction name.toList with
  | nil => rfl
  | cons c rest ih =>
    rw [List.flatMap_cons, byteLength_append, ih, byteLength_cons, List.count_cons, List.count_cons]
    by_cases hc : c = '\\'
    · subst hc
      simp [hbackslash]
      omega
    · by_cases hc' : c = '\''
      · subst hc'
        simp [hbackslash]
        omega
      · simp [hc, hc']
        omega

/-! ## Lexemes -/

namespace Lexeme

/-- The bytes that a lexeme takes in canonical text. -/
def canonicalSize : Lexeme → Nat
  | name n => utf8Length n
  | quoted n => 2 + utf8Length (escapeName n)
  | number i => utf8Length (toString i)
  | _ => 1

/-- The single quotes of a quoted name. -/
def singleQuotes : Lexeme → Nat
  | quoted n => n.toList.count '\''
  | _ => 0

end Lexeme

/-- What stands between two quotes is longer than what it denotes by one backslash at least for
each backslash and each quote of that kind. -/
theorem Unescapes.byteLength_le {quote : Char} {body content : List Char}
    (hquote : quote ≠ '\\') (h : Unescapes quote body content) :
    byteLength content + content.count '\\' + content.count quote ≤ byteLength body := by
  induction h with
  | nil => simp
  | @plain c body content ne_quote ne_backslash _ ih =>
    rw [List.count_cons_of_ne ne_quote, List.count_cons_of_ne ne_backslash]
    simp only [byteLength_cons]
    omega
  | @escaped c body content _ ih =>
    have hbackslash : '\\'.utf8Size = 1 := rfl
    -- a character is not both of what is counted
    have hone : (if c == '\\' then 1 else 0) + (if c == quote then 1 else 0) ≤ 1 := by
      by_cases hc : c = quote
      · simp [hc, hquote]
      · simp only [beq_iff_eq, hc, if_false]
        split <;> omega
    simp only [byteLength_cons, List.count_cons, hbackslash]
    omega

/-- Decimal digits have no leading zeros. -/
theorem utf8Length_toString_le {digits : List Char} {value : Nat} (ne_nil : digits ≠ [])
    (areDigits : ∀ c ∈ digits, isDecimalDigit c = true)
    (value_eq : Nat.ofDigits 10 (digits.map fun c => c.toNat - 0x30).reverse = value) :
    utf8Length (toString value) ≤ byteLength digits := by
  have hdigits : utf8Length (toString value) = (Nat.toDigits 10 value).length := by
    rw [Nat.toString_eq_repr, Nat.repr_eq_ofList_toDigits, utf8Length_ofList]
    exact byteLength_of_isDecimalDigit fun c => isDecimalDigit_of_mem_toDigits
  have hvalue : value < 10 ^ digits.length := by
    have hbound := Nat.ofDigits_lt_base_pow_length (b := 10)
      (l := (digits.map fun c => c.toNat - 0x30).reverse) (by decide) ?_
    · simpa [value_eq] using hbound
    · simp only [List.mem_reverse, List.mem_map, forall_exists_index, and_imp,
        forall_apply_eq_imp_iff₂]
      intro c hc
      have := isDecimalDigit_iff.mp (areDigits c hc)
      omega
  calc utf8Length (toString value)
      = (Nat.toDigits 10 value).length := hdigits
    _ ≤ digits.length := Nat.toDigits_length 10 value _ (List.length_pos_iff.mpr ne_nil) hvalue
    _ ≤ byteLength digits := length_le_byteLength digits

namespace Lexeme.Written

variable {lexeme : Lexeme} {chars : List Char}

/-- A lexeme takes at least as many bytes as in canonical text, apart from the backslashes before
single quotes. These it takes as well, unless it stands between double quotes. -/
theorem canonicalSize_le (h : lexeme.Written chars) :
    lexeme.canonicalSize ≤ byteLength chars + lexeme.singleQuotes ∧
      ('"' ∉ chars → lexeme.canonicalSize ≤ byteLength chars) := by
  cases h with
  | @quoted quote body content isQuote unescapes =>
    obtain ⟨hne, hsize⟩ : quote ≠ '\\' ∧ quote.utf8Size = 1 := by
      rcases isQuote with rfl | rfl <;> decide
    have hbody := unescapes.byteLength_le hne
    simp only [canonicalSize, singleQuotes, utf8Length_escapeName, utf8Length_ofList,
      byteLength_cons, byteLength_append, byteLength_nil, String.toList_ofList, hsize]
    refine ⟨by omega, fun hdouble => ?_⟩
    obtain rfl : quote = '\'' := isQuote.resolve_right fun hquote => hdouble (by simp [hquote])
    omega
  | number ne_nil areDigits value_eq =>
    have hle := utf8Length_toString_le ne_nil areDigits value_eq
    exact ⟨Nat.le_add_right_of_le hle, fun _ => hle⟩
  | @name c parts =>
    have hle : utf8Length (String.ofList (c :: parts)) ≤ byteLength (c :: parts) :=
      (utf8Length_ofList _).le
    exact ⟨Nat.le_add_right_of_le hle, fun _ => hle⟩
  | _ => exact ⟨Nat.le_refl 1, fun _ => Nat.le_refl 1⟩

/-- What is written as a number is below the bound of numbers. -/
theorem lt_wordSize {i : Nat} (h : (Lexeme.number i).Written chars) : i < UInt64.size := by
  cases h with
  | number _ _ _ bound => exact bound

end Lexeme.Written

/-- The lexemes of a text take no more bytes than the text, if each of them takes no more than it
is allowed to. -/
theorem Splits.sum_canonicalSize_le {pieces : List Piece} {trailing chars : List Char}
    (h : Splits pieces trailing chars) (extra : Lexeme → Nat)
    (hextra : ∀ p ∈ pieces, p.lexeme.canonicalSize ≤ byteLength p.chars + extra p.lexeme) :
    (pieces.map fun p => p.lexeme.canonicalSize).sum ≤
      byteLength chars + (pieces.map fun p => extra p.lexeme).sum := by
  induction pieces generalizing chars with
  | nil => simp
  | cons p rest ih =>
    obtain ⟨behind, rfl, -, hrest⟩ := h
    obtain ⟨hp, hextra⟩ := List.forall_mem_cons.mp hextra
    have hbehind := ih hrest hextra
    simp only [List.map_cons, List.sum_cons, byteLength_append]
    omega

theorem Splits.mem_chars {pieces : List Piece} {trailing chars : List Char}
    (h : Splits pieces trailing chars) {p : Piece} (hp : p ∈ pieces) {c : Char} (hc : c ∈ p.chars) :
    c ∈ chars := by
  induction pieces generalizing chars with
  | nil => cases hp
  | cons q rest ih =>
    obtain ⟨behind, rfl, -, hrest⟩ := h
    simp only [List.mem_append]
    rcases List.mem_cons.mp hp with rfl | hp
    · exact .inr (.inl hc)
    · exact .inr (.inr (ih hrest hp))

theorem map_lexeme_tokensFrom (offset : Nat) (pieces : List Piece) :
    (tokensFrom offset pieces).map Token.lexeme = pieces.map Piece.lexeme := by
  induction pieces generalizing offset with
  | nil => rfl
  | cons p rest ih => simp [tokensFrom, ih]

/-! ## Segments -/

namespace Segment

/-- A field is canonically no longer than its lexemes. It is shorter where quotes are left out. -/
theorem utf8Length_canonicalField_le {s : Segment}
    (hname : s.written = .dot → isIdentifier s.name = true) :
    utf8Length s.canonicalField ≤ (s.fieldLexemes.map Lexeme.canonicalSize).sum := by
  have hdot : utf8Length "." = 1 := rfl
  have hopen : utf8Length "['" = 2 := rfl
  have hclose : utf8Length "']" = 2 := rfl
  have hescape : utf8Length s.name ≤ utf8Length (escapeName s.name) := by
    rw [utf8Length_escapeName]
    omega
  unfold canonicalField fieldLexemes
  by_cases hbare : isIdentifier s.name
  · rw [if_pos hbare]
    rcases s.written with _ | _
    · simp [Lexeme.canonicalSize, hdot]
    · simp [Lexeme.canonicalSize, hdot]
      omega
  · rw [if_neg hbare]
    rcases hwritten : s.written with _ | _
    · exact absurd (hname hwritten) hbare
    · simp [Lexeme.canonicalSize, hopen, hclose]
      omega

/-- The canonical text of a segment is no longer than its lexemes. -/
theorem utf8Length_canonical_le {s : Segment}
    (hname : s.written = .dot → isIdentifier s.name = true) :
    utf8Length s.canonical ≤ (s.lexemes.map Lexeme.canonicalSize).sum := by
  rw [canonical, utf8Length_append, lexemes, List.map_append, List.sum_append]
  refine Nat.add_le_add (utf8Length_canonicalField_le hname) (Nat.le_of_eq ?_)
  unfold selectionLexemes
  rcases s.selection with _ | i | _
  · rfl
  · have hopen : utf8Length "[" = 1 := rfl
    have hclose : utf8Length "]" = 1 := rfl
    simp [Selection.lexemes, Selection.lexeme, Selection.text, Lexeme.canonicalSize, hopen, hclose]
    omega
  · rfl

/-- The single quotes in the lexemes of a segment are those in its name. -/
theorem sum_singleQuotes_le (s : Segment) :
    (s.lexemes.map Lexeme.singleQuotes).sum ≤ s.name.toList.count '\'' := by
  obtain ⟨name, _ | _, _ | _ | _⟩ := s <;>
    simp [lexemes, fieldLexemes, selectionLexemes, Selection.lexemes, Selection.lexeme,
      Lexeme.singleQuotes]

end Segment

/-! ## Expressions -/

/-- What is counted in the lexemes of an expression is counted segment by segment. -/
theorem Derives.sum_map {lexemes : List Lexeme} {segments : List Segment}
    (h : Derives lexemes segments) (f : Lexeme → Nat) :
    (lexemes.map f).sum = f .root + (segments.map fun s => (s.lexemes.map f).sum).sum := by
  rw [Derives] at h
  subst h
  rw [List.map_cons, List.sum_cons]
  congr 1
  induction segments with
  | nil => rfl
  | cons s rest ih => simp [ih]

namespace Expression

/-- The single quotes in the names of an expression. -/
def singleQuotes (e : Expression) : Nat :=
  (e.segments.map fun s => s.name.toList.count '\'').sum

variable {e : Expression}

/-- The canonical text of an expression is no longer than its lexemes. -/
theorem utf8Length_canonical_le
    (hname : ∀ s ∈ e.segments, s.written = .dot → isIdentifier s.name = true)
    {lexemes : List Lexeme} (h : Derives lexemes e.segments) :
    utf8Length e.canonical ≤ (lexemes.map Lexeme.canonicalSize).sum := by
  rw [canonical, utf8Length_append, utf8Length_join, List.map_map, h.sum_map]
  refine Nat.add_le_add_left (List.sum_le_sum fun s hs => ?_) 1
  exact Segment.utf8Length_canonical_le (hname s hs)

/-- The single quotes in the lexemes of an expression are those in its names. -/
theorem sum_singleQuotes_le {lexemes : List Lexeme} (h : Derives lexemes e.segments) :
    (lexemes.map Lexeme.singleQuotes).sum ≤ e.singleQuotes := by
  rw [h.sum_map, singleQuotes, Lexeme.singleQuotes.eq_def, Nat.zero_add]
  exact List.sum_le_sum fun s _ => s.sum_singleQuotes_le

/-- What is known of the lexemes of an expression: it is put together from pieces of its text. -/
theorem exists_pieces_of_readWithin {limits : Limits} {text : String}
    (h : readWithin limits text = .ok e) : ∃ pieces trailing,
      Splits pieces trailing text.toList ∧ Derives (pieces.map Piece.lexeme) e.segments := by
  obtain ⟨-, -, ⟨tokens, htokens, hderives⟩, -⟩ := readWithin_eq_ok_iff.mp h
  obtain ⟨pieces, trailing, hsplits, rfl⟩ :=
    (Cursor.tokens_eq_ok_iff (Nat.lt_succ_self _)).mp htokens
  rw [map_lexeme_tokensFrom] at hderives
  exact ⟨pieces, trailing, hsplits, hderives⟩

/-- The lexemes of a segment are written in the text. -/
theorem exists_written {pieces : List Piece} (h : Derives (pieces.map Piece.lexeme) e.segments)
    {s : Segment} (hs : s ∈ e.segments) {lexeme : Lexeme} (hlexeme : lexeme ∈ s.lexemes) :
    ∃ p ∈ pieces, p.lexeme = lexeme := by
  have hmem : lexeme ∈ pieces.map Piece.lexeme := by
    rw [h]
    exact List.mem_cons_of_mem _ (List.mem_flatMap.mpr ⟨s, hs, hlexeme⟩)
  exact List.mem_map.mp hmem

/-- Names that are written bare can stand bare. -/
theorem isIdentifier_of_derives {pieces : List Piece}
    (h : Derives (pieces.map Piece.lexeme) e.segments) {s : Segment} (hs : s ∈ e.segments)
    (hwritten : s.written = .dot) : isIdentifier s.name = true := by
  have hlexeme : .name s.name ∈ s.lexemes := by
    simp [Segment.lexemes, Segment.fieldLexemes, hwritten]
  obtain ⟨p, -, hp⟩ := exists_written h hs hlexeme
  exact (Lexeme.written_name_iff.mp (hp ▸ p.written)).1

/-- Positions that are written are below the bound of numbers. -/
theorem writable_of_derives {pieces : List Piece}
    (h : Derives (pieces.map Piece.lexeme) e.segments) {s : Segment} (hs : s ∈ e.segments) :
    s.Writable := by
  intro i hi
  have hlexeme : .number i ∈ s.lexemes := by
    simp [Segment.lexemes, Segment.selectionLexemes, Selection.lexemes, Selection.lexeme, hi]
  obtain ⟨p, -, hp⟩ := exists_written h hs hlexeme
  exact Lexeme.Written.lt_wordSize (hp ▸ p.written)

/-- The canonical text of an expression is no longer than its text and the single quotes in its
names, and no longer than its text alone without double quotes. -/
theorem utf8Length_canonical_le_of_readWithin {limits : Limits} {text : String}
    (h : readWithin limits text = .ok e) :
    utf8Length e.canonical ≤ utf8Length text + e.singleQuotes ∧
      ('"' ∉ text.toList → utf8Length e.canonical ≤ utf8Length text) := by
  obtain ⟨pieces, trailing, hsplits, hderives⟩ := exists_pieces_of_readWithin h
  have hlexemes := utf8Length_canonical_le (fun s => isIdentifier_of_derives hderives) hderives
  have hquotes := sum_singleQuotes_le hderives
  rw [List.map_map] at hlexemes hquotes
  constructor
  · have hpieces := hsplits.sum_canonicalSize_le Lexeme.singleQuotes
      fun p _ => p.written.canonicalSize_le.1
    exact hlexemes.trans (hpieces.trans (Nat.add_le_add_left hquotes _))
  · intro hdouble
    have hpieces := hsplits.sum_canonicalSize_le (fun _ => 0) fun p hp =>
      p.written.canonicalSize_le.2 fun hmem => hdouble (hsplits.mem_chars hp hmem)
    have hnone : (pieces.map fun _ => 0).sum = 0 := by simp [List.map_const']
    rw [hnone] at hpieces
    exact hlexemes.trans hpieces

/-- The canonical text of an expression is one itself, with the same names and selections, as long
as it is within the limit on the length of texts. Past the limit it is refused for its length.
It is longer than the text of the expression by the single quotes in its names at most, and it is
no longer where no name stands between double quotes. -/
theorem parse_canonical {text : String} (h : parse text = .ok e) :
    (utf8Length e.canonical ≤ 1024 → ∃ e', parse e.canonical = .ok e' ∧
      (e'.segments.map fun s => (s.name, s.selection)) =
        e.segments.map fun s => (s.name, s.selection)) ∧
    (1024 < utf8Length e.canonical → parse e.canonical =
      .error ⟨e.canonical, 1024, .tooLong (utf8Length e.canonical) 1024⟩) ∧
    utf8Length e.canonical ≤ utf8Length text + e.singleQuotes ∧
    ('"' ∉ text.toList → utf8Length e.canonical ≤ utf8Length text) := by
  rw [parse, parseWithin, mapError_eq_ok_iff] at h
  obtain ⟨pieces, trailing, hsplits, hderives⟩ := exists_pieces_of_readWithin h
  obtain ⟨-, -, -, hcount⟩ := readWithin_eq_ok_iff.mp h
  refine ⟨fun hlength => ?_, fun hlength => ?_, utf8Length_canonical_le_of_readWithin h⟩
  · refine ⟨⟨e.canonical, e.segments.map Segment.recast⟩, ?_, by simp⟩
    rw [parse, parseWithin, mapError_eq_ok_iff, readWithin_eq_ok_iff]
    refine ⟨hlength, rfl, tokenize_canonical fun s hs => writable_of_derives hderives hs, ?_⟩
    rw [taskCount_eq] at hcount ⊢
    simpa [List.countP_map, Function.comp_def] using hcount
  · rw [parse, parseWithin, readWithin, if_pos hlength]
    rfl

/-- Blanks, a name between double quotes and leading zeros. -/
def loose : Expression where
  source := "$ . a [\"it's\"] [007]"
  segments := [⟨"a", .dot, none⟩, ⟨"it's", .bracket, some (.index 7)⟩]

theorem parse_canonical_loose :
    ∃ e', parse "$.a['it\\'s'][7]" = .ok e' ∧
      (e'.segments.map fun s => (s.name, s.selection)) =
        [("a", none), ("it's", some (.index 7))] := by
  have canonical : loose.canonical = "$.a['it\\'s'][7]" := by rfl
  have accepted : parse loose.source = .ok loose := by decide +kernel
  rw [← canonical]
  exact (parse_canonical accepted).1 (by rw [canonical]; decide)

/-- The expression with one name, of `n` single quotes, written between double quotes. -/
def quotes (n : Nat) : Expression where
  source := "$[\"" ++ String.ofList (List.replicate n '\'') ++ "\"]"
  segments := [⟨String.ofList (List.replicate n '\''), .bracket, none⟩]

theorem unescapes_replicate (n : Nat) :
    Unescapes '"' (List.replicate n '\'') (List.replicate n '\'') := by
  induction n with
  | zero => exact .nil
  | succ n ih => exact .plain (by decide) (by decide) ih

theorem byteLength_replicate (n : Nat) : byteLength (List.replicate n '\'') = n := by
  have hsize : '\''.utf8Size = 1 := rfl
  induction n with
  | zero => rfl
  | succ n ih => rw [List.replicate_succ, byteLength_cons, ih, hsize, Nat.add_comm]

theorem utf8Length_source_quotes (n : Nat) : utf8Length (quotes n).source = n + 5 := by
  have hopen : utf8Length "$[\"" = 3 := rfl
  have hclose : utf8Length "\"]" = 2 := rfl
  simp only [quotes, utf8Length_append, utf8Length_ofList, byteLength_replicate, hopen, hclose]
  omega

/-- Each of the quotes is escaped, and there is nothing else that could get shorter. -/
theorem utf8Length_canonical_quotes (n : Nat) :
    utf8Length (quotes n).canonical = 2 * n + 5 := by
  have hname : isIdentifier (String.ofList (List.replicate n '\'')) = false := by
    rw [isIdentifier, String.toList_ofList]
    cases n with
    | zero => rfl
    | succ n => exact Bool.and_eq_false_imp.mpr fun h => absurd h (by decide)
  have hescape : utf8Length (escapeName (String.ofList (List.replicate n '\''))) = n + n := by
    rw [utf8Length_escapeName, utf8Length_ofList, byteLength_replicate, String.toList_ofList]
    simp [List.count_replicate]
  have hcanonical : (quotes n).canonical =
      "$" ++ ("['" ++ escapeName (String.ofList (List.replicate n '\'')) ++ "']") := by
    simp [quotes, canonical, Segment.canonical, Segment.canonicalField, hname]
  have hroot : utf8Length "$" = 1 := rfl
  have hopen : utf8Length "['" = 2 := rfl
  have hclose : utf8Length "']" = 2 := rfl
  rw [hcanonical, utf8Length_append, utf8Length_append, utf8Length_append, hescape, hroot, hopen,
    hclose]
  omega

theorem parse_quotes {n : Nat} (h : n + 5 ≤ 1024) : parse (quotes n).source = .ok (quotes n) := by
  rw [parse, parseWithin, mapError_eq_ok_iff, readWithin_eq_ok_iff, utf8Length_source_quotes]
  refine ⟨h, rfl, ?_, show 1 ≤ 32 by decide⟩
  have hwritten := Lexeme.Written.quoted (.inr rfl) (unescapes_replicate n)
  let pieces : List Piece :=
    [⟨[], ['$'], .root, by simp, .root⟩, ⟨[], ['['], .openBracket, by simp, .openBracket⟩,
      ⟨[], _, _, by simp, hwritten⟩, ⟨[], [']'], .closeBracket, by simp, .closeBracket⟩]
  refine ⟨tokensFrom 0 pieces, ?_, by rw [map_lexeme_tokensFrom]; rfl⟩
  refine (Cursor.tokens_eq_ok_iff (Nat.lt_succ_self _)).mpr ⟨pieces, [], ?_, rfl⟩
  simp [pieces, Splits, Cursor.start, quotes, Lexeme.EndsBefore, String.toList_append]

/-- A text of 515 bytes is accepted and its canonical text, of 1025 bytes, is not. -/
theorem parse_canonical_quotes :
    parse (quotes 510).source = .ok (quotes 510) ∧
      parse (quotes 510).canonical =
        .error ⟨(quotes 510).canonical, 1024, .tooLong 1025 1024⟩ := by
  have accepted : parse (quotes 510).source = .ok (quotes 510) := parse_quotes (by decide)
  have hlength : utf8Length (quotes 510).canonical = 1025 := utf8Length_canonical_quotes 510
  refine ⟨accepted, ?_⟩
  rw [parse, parseWithin, readWithin, hlength]
  rfl

end Expression

end RecordCipher
