import RecordCipher.Proofs.Expression.Grammar
import RecordCipher.Proofs.Expression.Lexing

/-!
# The canonical text of an expression reads back

The canonical text of a segment is put together from the texts of its lexemes, in the notation
that its name allows. Behind a segment there is a dot, a bracket or nothing, none of which could
be a part of its last lexeme, so that the text of an expression falls apart into the lexemes of
its segments. These are in the grammar, and the grammar is unambiguous.

## Main definitions

* `Segment.recast`: a segment in the notation of its canonical text

## Main results

* `Segment.lexes_canonical`, `lexes_canonical_segments`: the lexemes of canonical texts
* `Expression.parseWithin_canonical`: the canonical text of an expression denotes the same names
  and selections, and is the canonical text of what it denotes
-/

namespace RecordCipher

/-- The segment in the notation in which it is written canonically. -/
def Segment.recast (s : Segment) : Segment :=
  { s with written := if isIdentifier s.name then .dot else .bracket }

@[simp] theorem Segment.recast_name (s : Segment) : s.recast.name = s.name := rfl

@[simp] theorem Segment.recast_selection (s : Segment) : s.recast.selection = s.selection := rfl

@[simp] theorem Segment.canonical_recast (s : Segment) : s.recast.canonical = s.canonical := rfl

/-- An array subscript that can be written as a number below `2 ^ 64`. -/
def Segment.Writable (s : Segment) : Prop :=
  ∀ i, s.selection = some (.index i) → i < UInt64.size

/-- What can stand behind a segment: another one that starts with a sign, or nothing. -/
def Continues (chars : List Char) : Prop :=
  ∀ c ∈ chars.head?, c = '.' ∨ c = '['

theorem Continues.not_isIdentifierPart {chars : List Char} (h : Continues chars) :
    ∀ c ∈ chars.head?, isIdentifierPart c = false := by
  intro c hc
  rcases h c hc with rfl | rfl <;> decide

/-! ## Segments -/

/-- A selection falls apart into its lexemes. -/
theorem Selection.lexes_text {selection : Selection}
    (hindex : ∀ i, selection = .index i → i < UInt64.size) {behind : List Char}
    {lexemes : List Lexeme} (h : Lexes behind lexemes) :
    Lexes ('[' :: (selection.text.toList ++ ']' :: behind)) (selection.lexemes ++ lexemes) := by
  have hclose : Lexes (']' :: behind) (.closeBracket :: lexemes) := .sign rfl rfl h
  refine .sign rfl rfl ?_
  cases selection with
  | index i => exact .number (hindex i rfl) (by simp; decide) hclose
  | every => exact .sign rfl rfl hclose

namespace Segment

/-- A field falls apart into its lexemes, whatever characters its name has. -/
theorem lexes_canonicalField (s : Segment) {behind : List Char} {lexemes : List Lexeme}
    (hbehind : Continues behind) (h : Lexes behind lexemes) :
    Lexes (s.canonicalField.toList ++ behind) (s.recast.fieldLexemes ++ lexemes) := by
  unfold canonicalField recast fieldLexemes
  split
  · next hname =>
    -- the name could only go on with characters of which none is behind it
    rw [String.toList_append, List.append_assoc]
    exact .sign rfl rfl (.name hname hbehind.not_isIdentifierPart h)
  · have hchars : ("['" ++ escapeName s.name ++ "']").toList ++ behind =
        '[' :: '\'' :: ((escapeName s.name).toList ++ '\'' :: ']' :: behind) := by
      simp [String.toList_append]
    rw [hchars]
    exact .sign rfl rfl (.quoted s.name (.sign rfl rfl h))

/-- The canonical text of a segment falls apart into its lexemes. -/
theorem lexes_canonical {s : Segment} (hs : s.Writable) {behind : List Char}
    {lexemes : List Lexeme} (hbehind : Continues behind) (h : Lexes behind lexemes) :
    Lexes (s.canonical.toList ++ behind) (s.recast.lexemes ++ lexemes) := by
  obtain ⟨name, written, selection⟩ := s
  rw [canonical, Segment.lexemes, String.toList_append, List.append_assoc, List.append_assoc]
  cases selection with
  | none =>
    refine lexes_canonicalField _ (by simpa using hbehind) ?_
    simpa [selectionLexemes] using h
  | some selection =>
    refine lexes_canonicalField _ ?_ ?_
    · simp [Continues]
    · have hselection := Selection.lexes_text (fun i hi => hs i (congrArg some hi)) h
      simpa [selectionLexemes] using hselection

/-- A segment starts with a sign. -/
theorem continues_canonical (s : Segment) (behind : List Char) :
    Continues (s.canonical.toList ++ behind) := by
  unfold canonical canonicalField
  split <;> simp [Continues]

end Segment

theorem lexes_canonical_segments {segments : List Segment}
    (hs : ∀ s ∈ segments, s.Writable) :
    Lexes (segments.flatMap fun s => s.canonical.toList)
      ((segments.map Segment.recast).flatMap Segment.lexemes) := by
  induction segments with
  | nil => exact .nil
  | cons s rest ih =>
    obtain ⟨hfirst, hrest⟩ := List.forall_mem_cons.mp hs
    rw [List.flatMap_cons, List.map_cons, List.flatMap_cons]
    refine Segment.lexes_canonical hfirst ?_ (ih hrest)
    -- what is behind the segment starts with the next one
    cases rest with
    | nil => simp [Continues]
    | cons next rest => exact Segment.continues_canonical _ _

/-! ## Expressions -/

namespace Expression

/-- The lexemes of the canonical text are derived from the segments, in the notation in which
they are written canonically. -/
theorem tokenize_canonical {e : Expression} (hs : ∀ s ∈ e.segments, s.Writable) :
    ∃ tokens, tokenize e.canonical = .ok tokens ∧
      Derives (tokens.map Token.lexeme) (e.segments.map Segment.recast) := by
  have hchars : e.canonical.toList = '$' :: e.segments.flatMap fun s => s.canonical.toList := by
    rw [canonical, String.toList_append, String.toList_join, List.flatMap_map]
    rfl
  have hlexes : Lexes e.canonical.toList
      (.root :: (e.segments.map Segment.recast).flatMap Segment.lexemes) := by
    rw [hchars]
    exact .sign rfl rfl (lexes_canonical_segments hs)
  exact hlexes _ 0 (Nat.lt_succ_self _)

/-- The canonical text of an expression, whatever characters its names have, denotes within large
enough limits an expression with the same names and selections, and is the canonical text of that
one as well. -/
theorem parseWithin_canonical (e : Expression) (limits : Limits)
    (hs : ∀ s ∈ e.segments, s.Writable) (hlength : utf8Length e.canonical ≤ limits.maxLength)
    (hcount : e.taskCount ≤ limits.maxTasks) :
    ∃ e', parseWithin limits e.canonical = .ok e' ∧
      (e'.segments.map fun s => (s.name, s.selection)) =
        (e.segments.map fun s => (s.name, s.selection)) ∧
      e'.canonical = e.canonical := by
  refine ⟨⟨e.canonical, e.segments.map Segment.recast⟩, ?_, ?_, ?_⟩
  · rw [parseWithin, mapError_eq_ok_iff, readWithin_eq_ok_iff]
    refine ⟨hlength, rfl, tokenize_canonical hs, ?_⟩
    -- the notation has no influence on the number of tasks
    rw [taskCount_eq] at hcount ⊢
    simpa [List.countP_map, Function.comp_def] using hcount
  · simp
  · simp [canonical, Function.comp_def]

/-- Names that are empty, start with a digit, hold quotes, backslashes, brackets and blanks, or
have letters beyond the first 128 characters, and the greatest position. -/
def oddNames : Expression where
  source := ""
  segments := [⟨"", .dot, none⟩, ⟨"1a", .dot, some .every⟩, ⟨"it's \\ [0]", .dot, none⟩,
    ⟨"größe", .bracket, some (.index 18446744073709551615)⟩]

theorem parseWithin_canonical_oddNames :
    ∃ e', parseWithin ⟨64, 6⟩ "$['']['1a'][*]['it\\'s \\\\ [0]'].größe[18446744073709551615]" =
      .ok e' ∧
      (e'.segments.map fun s => (s.name, s.selection)) =
        [("", none), ("1a", some .every), ("it's \\ [0]", none),
          ("größe", some (.index 18446744073709551615))] ∧
      e'.canonical = "$['']['1a'][*]['it\\'s \\\\ [0]'].größe[18446744073709551615]" := by
  have canonical : oddNames.canonical =
      "$['']['1a'][*]['it\\'s \\\\ [0]'].größe[18446744073709551615]" := by rfl
  have writable : ∀ s ∈ oddNames.segments, s.Writable := by
    simp [oddNames, Segment.Writable]
  rw [← canonical]
  exact parseWithin_canonical oddNames ⟨64, 6⟩ writable (by rw [canonical]; decide) (by decide)

end Expression

end RecordCipher
