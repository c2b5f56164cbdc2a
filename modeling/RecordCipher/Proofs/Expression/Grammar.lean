import RecordCipher.Expression.Parser
import RecordCipher.Proofs.Computation

/-!
# The grammar of path expressions

A list of segments is a syntax tree of the grammar: it says which alternative was taken at every
place, and the lexemes derived from it can be read off it. The parser has to go the other way,
and a bracket behind a field does not tell it yet whether a selection follows or another field.
What it has read since the last complete segment is decided by its stage. The lexemes read so far
are therefore at any time those of the segments it has completed, followed by those that are
pending at its stage.

## Main definitions

* `Segment.lexemes`: the lexemes derived from a segment
* `Derives`: the grammar of path expressions
* `Stage.segments?`: what the parser makes of lexemes, wherever they stand in a text
* `Stage.pending`: the lexemes read since the last complete segment

## Main results

* `Stage.next?_sound`, `Stage.segments?_sound`: what one lexeme does to those read so far, and
  that the parser accepts nothing outside of the grammar
* `Stage.segments?_flatMap`: the parser accepts everything in the grammar
* `Expression.parseWithin_eq_ok_iff`: which texts are expressions within limits, and which
  expression each of them is
-/

namespace RecordCipher

/-! ## The grammar -/

/-- What stands between the brackets of a selection: `NUMBER | '*'`. -/
def Selection.lexeme : Selection → Lexeme
  | .index i => .number i
  | .every => .wildcard

/-- `selection := '[' (NUMBER | '*') ']'` -/
def Selection.lexemes (selection : Selection) : List Lexeme :=
  [.openBracket, selection.lexeme, .closeBracket]

namespace Segment

/-- A field without its selection: `'.' NAME | '[' QUOTED ']'`. -/
def fieldLexemes (s : Segment) : List Lexeme :=
  match s.written with
  | .dot => [.dot, .name s.name]
  | .bracket => [.openBracket, .quoted s.name, .closeBracket]

/-- The selection of a field, if it has one: `selection?`. -/
def selectionLexemes (s : Segment) : List Lexeme :=
  match s.selection with
  | some selection => selection.lexemes
  | none => []

/-- `field := '.' NAME selection? | '[' QUOTED ']' selection?` -/
def lexemes (s : Segment) : List Lexeme := s.fieldLexemes ++ s.selectionLexemes

end Segment

/-- `path := '$' field*`, where the segments say how the lexemes are derived. -/
def Derives (lexemes : List Lexeme) (segments : List Segment) : Prop :=
  lexemes = .root :: segments.flatMap Segment.lexemes

/-! ## The parser on lexemes -/

namespace Stage

/-- The segments denoted by the lexemes behind a stage, if there are any. -/
def segments? : Stage → List Lexeme → Option (List Segment)
  | stage, [] => stage.finish?
  | stage, lexeme :: rest =>
    match stage.next? lexeme with
    | none => none
    | some (done, stage) => (segments? stage rest).map (done ++ ·)

end Stage

/-- Where the lexemes stand in a text matters for faults only. -/
theorem segmentsFrom_eq_ok_iff {length : Nat} {stage : Stage} {tokens : List Token}
    {segments : List Segment} : segmentsFrom length stage tokens = .ok segments ↔
      stage.segments? (tokens.map Token.lexeme) = some segments := by
  induction tokens generalizing stage segments with
  | nil =>
    rw [segmentsFrom, List.map_nil, Stage.segments?]
    cases stage.finish? <;> simp
  | cons token rest ih =>
    rw [segmentsFrom, List.map_cons, Stage.segments?]
    rcases stage.next? token.lexeme with _ | ⟨done, stage'⟩
    · simp
    · simp only [bind_eq_ok_iff, ih, Option.map_eq_some_iff, pure, Except.pure, Except.ok.injEq]

namespace Stage

/-! ## Soundness -/

/-- The lexemes read since the last complete segment; the root counts for nothing. -/
def pending : Stage → List Lexeme
  | start | path => []
  | field s => s.lexemes
  | dot => [.dot]
  | bracket => [.openBracket]
  | fieldBracket s => s.lexemes ++ [.openBracket]
  | quoted name => [.openBracket, .quoted name]
  | selection s =>
    s.fieldLexemes ++ .openBracket :: (s.selection.map Selection.lexeme).toList

/-- The parser is behind the root, and the segment that is not complete yet has a selection if
that is what is being read. -/
def Coherent : Stage → Prop
  | start => False
  | field s | fieldBracket s => s.selection = none
  | selection s => s.selection.isSome = true
  | path | dot | bracket | quoted _ => True

/-- A lexeme that can follow those pending at a stage completes segments with them, or is
pending itself. -/
theorem next?_sound {stage stage' : Stage} {lexeme : Lexeme} {done : List Segment}
    (coherent : stage.Coherent) (h : stage.next? lexeme = some (done, stage')) :
    stage.pending ++ [lexeme] = done.flatMap Segment.lexemes ++ stage'.pending ∧
      stage'.Coherent := by
  cases stage with
  | start => exact coherent.elim
  | path =>
    cases lexeme with
    | dot | openBracket =>
      cases h
      exact ⟨rfl, trivial⟩
    | _ => cases h
  | field s =>
    cases lexeme with
    | dot =>
      cases h
      simp [pending, Coherent]
    | openBracket =>
      cases h
      exact ⟨rfl, coherent⟩
    | _ => cases h
  | dot =>
    cases lexeme with
    | name n =>
      cases h
      exact ⟨rfl, rfl⟩
    | _ => cases h
  | bracket =>
    cases lexeme with
    | quoted n =>
      cases h
      exact ⟨rfl, trivial⟩
    | _ => cases h
  | fieldBracket s =>
    have hnone : s.selection = none := coherent
    cases lexeme with
    | quoted n =>
      cases h
      simp [pending, Coherent]
    | number i =>
      -- the bracket turns out to open the selection that the field did not have
      cases h
      simp [pending, Coherent, Segment.lexemes, Segment.selectionLexemes, Segment.fieldLexemes,
        Selection.lexeme, hnone]
    | wildcard =>
      cases h
      simp [pending, Coherent, Segment.lexemes, Segment.selectionLexemes, Segment.fieldLexemes,
        Selection.lexeme, hnone]
    | _ => cases h
  | quoted n =>
    cases lexeme with
    | closeBracket =>
      cases h
      exact ⟨rfl, rfl⟩
    | _ => cases h
  | selection s =>
    cases lexeme with
    | closeBracket =>
      cases h
      obtain ⟨selection, hsome⟩ := Option.isSome_iff_exists.mp coherent
      simp [pending, Coherent, Segment.lexemes, Segment.selectionLexemes, Selection.lexemes, hsome]
    | _ => cases h

/-- Where a path can end, those that are pending complete the last segment. -/
theorem finish?_sound {stage : Stage} {done : List Segment} (h : stage.finish? = some done) :
    stage.pending = done.flatMap Segment.lexemes := by
  unfold finish? at h
  split at h
  · obtain rfl : [] = done := by simpa using h
    rfl
  · obtain rfl : _ = done := by simpa using h
    simp [pending]
  · cases h

/-- The lexemes pending at a stage and those behind it are derived from the segments that the
parser makes of them. -/
theorem segments?_sound {stage : Stage} {lexemes : List Lexeme} {segments : List Segment}
    (coherent : stage.Coherent) (h : stage.segments? lexemes = some segments) :
    stage.pending ++ lexemes = segments.flatMap Segment.lexemes := by
  -- Induction on the lexemes, for whatever stage the ones before have led to.
  induction lexemes generalizing stage segments with
  | nil =>
    rw [List.append_nil]
    exact finish?_sound h
  | cons lexeme rest ih =>
    rw [segments?] at h
    split at h
    · cases h
    · next done stage' hnext =>
      obtain ⟨others, hothers, rfl⟩ := Option.map_eq_some_iff.mp h
      obtain ⟨hpending, coherent'⟩ := next?_sound coherent hnext
      calc stage.pending ++ lexeme :: rest
          = stage.pending ++ [lexeme] ++ rest := by simp
        _ = done.flatMap Segment.lexemes ++ (stage'.pending ++ rest) := by
          rw [hpending, List.append_assoc]
        _ = (done ++ others).flatMap Segment.lexemes := by
          rw [ih coherent' hothers, List.flatMap_append]

/-! ## Completeness -/

/-- A field is read behind the root or a selection as well as behind another field, which is
complete then. -/
theorem segments?_fieldLexemes (s : Segment) (rest : List Lexeme) :
    path.segments? (s.fieldLexemes ++ rest) =
        (field { s with selection := none }).segments? rest ∧
      ∀ before, (field before).segments? (s.fieldLexemes ++ rest) =
        ((field { s with selection := none }).segments? rest).map (before :: ·) := by
  obtain ⟨name, written, selection⟩ := s
  cases written <;> simp [segments?, next?, Segment.fieldLexemes, Function.comp_def]

/-- The lexemes of segments are read as these segments, behind the root or a selection as well as
behind a field that has no selection yet. -/
theorem segments?_flatMap (segments : List Segment) :
    path.segments? (segments.flatMap Segment.lexemes) = some segments ∧
      ∀ s : Segment, s.selection = none →
        (field s).segments? (segments.flatMap Segment.lexemes) = some (s :: segments) := by
  induction segments with
  | nil => exact ⟨rfl, fun _ _ => rfl⟩
  | cons s rest ih =>
    obtain ⟨behindPath, behindField⟩ := ih
    -- the field is complete without a selection, and with one behind its bracket
    have behindName : (field { s with selection := none }).segments?
        (s.selectionLexemes ++ rest.flatMap Segment.lexemes) = some (s :: rest) := by
      obtain ⟨name, written, _ | i | _⟩ := s
      · exact behindField _ rfl
      · simp [segments?, next?, Segment.selectionLexemes, Selection.lexemes, Selection.lexeme,
          behindPath]
      · simp [segments?, next?, Segment.selectionLexemes, Selection.lexemes, Selection.lexeme,
          behindPath]
    obtain ⟨behindRoot, behindOther⟩ :=
      segments?_fieldLexemes s (s.selectionLexemes ++ rest.flatMap Segment.lexemes)
    rw [List.flatMap_cons, Segment.lexemes, List.append_assoc]
    refine ⟨behindRoot.trans behindName, fun before _ => ?_⟩
    rw [behindOther, behindName]
    rfl

/-- The parser accepts what the grammar derives, and nothing else. -/
theorem start_segments?_eq_some_iff {lexemes : List Lexeme} {segments : List Segment} :
    start.segments? lexemes = some segments ↔ Derives lexemes segments := by
  constructor
  · intro h
    cases lexemes with
    | nil => cases h
    | cons lexeme rest =>
      -- nothing but the root can stand first
      obtain rfl : lexeme = .root := by
        cases lexeme <;> first | rfl | cases h
      have h : path.segments? rest = some segments := by simpa [segments?, next?] using h
      have sound := segments?_sound (show path.Coherent from trivial) h
      rw [Derives, ← sound]
      rfl
  · rintro rfl
    simp [segments?, next?, (segments?_flatMap segments).1]

/-- The root has no elements. -/
example : start.segments? [.root, .openBracket, .number 0, .closeBracket] = none := rfl

end Stage

/-- Lexemes are derived in one way at most: the parser finds each derivation. -/
theorem Derives.unique {lexemes : List Lexeme} {segments segments' : List Segment}
    (h : Derives lexemes segments) (h' : Derives lexemes segments') : segments = segments' := by
  rw [← Stage.start_segments?_eq_some_iff] at h h'
  exact Option.some.inj (h.symm.trans h')

/-! ## Texts -/

namespace Expression

/-- There is one task for each field, and one more for each selection. -/
theorem taskCount_eq (e : Expression) :
    e.taskCount = e.segments.length + e.segments.countP (·.selection.isSome) := by
  unfold taskCount
  induction e.segments with
  | nil => rfl
  | cons s rest ih =>
    rw [List.foldr_cons, ih, Segment.taskCount, List.length_cons, List.countP_cons]
    omega

theorem readWithin_eq_ok_iff {limits : Limits} {text : String} {e : Expression} :
    readWithin limits text = .ok e ↔ utf8Length text ≤ limits.maxLength ∧
      e.source = text ∧ (∃ tokens, tokenize text = .ok tokens ∧
        Derives (tokens.map Token.lexeme) e.segments) ∧ e.taskCount ≤ limits.maxTasks := by
  unfold readWithin
  split
  · next hlength =>
    simp only [reduceCtorEq, false_iff]
    omega
  · next hlength =>
    rw [and_iff_right (by omega)]
    simp only [bind_eq_ok_iff, segmentsFrom_eq_ok_iff, Stage.start_segments?_eq_some_iff]
    constructor
    · rintro ⟨tokens, htokens, segments, hderives, h⟩
      split at h
      · cases h
      · obtain rfl : _ = e := by simpa using h
        exact ⟨rfl, ⟨tokens, htokens, hderives⟩, by omega⟩
    · rintro ⟨rfl, ⟨tokens, htokens, hderives⟩, hcount⟩
      exact ⟨tokens, htokens, e.segments, hderives, if_neg (Nat.not_lt.mpr hcount)⟩

/-- A text is an expression within limits when it is short enough, falls into lexemes that the
grammar derives, and has few enough fields and selections. Its segments are then the one
derivation of its lexemes. -/
theorem parseWithin_eq_ok_iff (limits : Limits) (text : String) :
    (∀ e : Expression, parseWithin limits text = .ok e ↔
      utf8Length text ≤ limits.maxLength ∧ e.source = text ∧
        (∃ tokens, tokenize text = .ok tokens ∧
          Derives (tokens.map Token.lexeme) e.segments) ∧
        e.segments.length + e.segments.countP (·.selection.isSome) ≤ limits.maxTasks) ∧
      ∀ lexemes segments segments', Derives lexemes segments → Derives lexemes segments' →
        segments = segments' := by
  refine ⟨fun e => ?_, fun lexemes segments segments' h h' => h.unique h'⟩
  rw [parseWithin, mapError_eq_ok_iff, readWithin_eq_ok_iff, taskCount_eq]

end Expression

end RecordCipher
