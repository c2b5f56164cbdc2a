import RecordCipher.Proofs.Expression.CanonicalLength

/-!
# Where a text stops being an expression

The parser reads one lexeme after the other and stops at the first one that its stage cannot go on
with. There is no dead end among the stages: from each of them some lexemes lead to the end of a
path. So the lexemes that were read begin an expression, and no expression begins with those and
the one that was refused. This holds behind a field as well, where a bracket is read before it is
known what it opens. A text that is no expression is therefore refused where it becomes hopeless,
and at its end when it is only incomplete.

## Main definitions

* `Begins`: the lexemes with which expressions begin
* `FirstImpossible`: the token that makes a list of tokens hopeless
* `Stage.after?`, `Stage.ending`: the stage behind some lexemes, and a way to the end of a path

## Main results

* `exists_tokenize`: any lexemes that can be written are those of a text
* `begins_iff`: lexemes begin an expression when the parser can read them
* `segmentsFrom_eq_error`: where the parser stops
* `Expression.parseWithin_eq_error_of_not_derives`: the position of the fault
-/

namespace RecordCipher

/-- An expression begins with the lexemes: they are the first lexemes of a text, and the grammar
derives all its lexemes. -/
def Begins (lexemes : List Lexeme) : Prop :=
  ∃ (text : String) (tokens : List Token) (segments : List Segment), tokenize text = .ok tokens ∧
    Derives (tokens.map Token.lexeme) segments ∧ lexemes <+: tokens.map Token.lexeme

/-- The first token of a list with which the lexemes up to it begin no expression. -/
def FirstImpossible (tokens : List Token) (token : Token) : Prop :=
  ∃ before after, tokens = before ++ token :: after ∧
    ¬ Begins ((before ++ [token]).map Token.lexeme) ∧
      ∀ earlier, earlier <+: before → Begins (earlier.map Token.lexeme)

theorem Begins.of_prefix {lexemes lexemes' : List Lexeme} (h : Begins lexemes)
    (hfront : lexemes' <+: lexemes) : Begins lexemes' := by
  obtain ⟨text, tokens, segments, htokens, hderives, hbefore⟩ := h
  exact ⟨text, tokens, segments, htokens, hderives, hfront.trans hbefore⟩

/-! ## Lexemes as texts -/

/-- Lexemes that can be written are written one after the other with a space before each. -/
theorem exists_pieces {lexemes : List Lexeme}
    (h : ∀ lexeme ∈ lexemes, ∃ chars, lexeme.Written chars) :
    ∃ (pieces : List Piece) (chars : List Char), Splits pieces [] chars ∧
      pieces.map Piece.lexeme = lexemes ∧ ∀ c ∈ chars.head?, isBlank c = true := by
  have hblank : ∀ c ∈ [' '], isBlank c = true := List.forall_mem_singleton.mpr rfl
  induction lexemes with
  | nil => exact ⟨[], [], ⟨rfl, by simp⟩, rfl, by simp⟩
  | cons lexeme rest ih =>
    obtain ⟨⟨chars, hwritten⟩, hrest⟩ := List.forall_mem_cons.mp h
    obtain ⟨pieces, behind, hsplits, hlexemes, hbehind⟩ := ih hrest
    refine ⟨⟨[' '], chars, lexeme, hblank, hwritten⟩ :: pieces, ' ' :: (chars ++ behind),
      ?_, ?_, ?_⟩
    · exact ⟨behind, rfl, Lexeme.endsBefore_of_isBlank hbehind, hsplits⟩
    · rw [List.map_cons, hlexemes]
    · simpa using hblank

theorem exists_tokenize {lexemes : List Lexeme}
    (h : ∀ lexeme ∈ lexemes, ∃ chars, lexeme.Written chars) :
    ∃ text tokens, tokenize text = .ok tokens ∧ tokens.map Token.lexeme = lexemes := by
  obtain ⟨pieces, chars, hsplits, hlexemes, -⟩ := exists_pieces h
  refine ⟨String.ofList chars, tokensFrom 0 pieces, ?_, by rw [map_lexeme_tokensFrom, hlexemes]⟩
  apply (Cursor.tokens_eq_ok_iff (Nat.lt_succ_self _)).mpr
  exact ⟨pieces, [], by simpa [Cursor.start] using hsplits, rfl⟩

/-- The lexemes of a text can be written. -/
theorem exists_written_of_tokenize {text : String} {tokens : List Token}
    (h : tokenize text = .ok tokens) {lexeme : Lexeme} (hm : lexeme ∈ tokens.map Token.lexeme) :
    ∃ chars, lexeme.Written chars := by
  obtain ⟨pieces, trailing, -, rfl⟩ := (Cursor.tokens_eq_ok_iff (Nat.lt_succ_self _)).mp h
  rw [map_lexeme_tokensFrom] at hm
  obtain ⟨p, -, rfl⟩ := List.mem_map.mp hm
  exact ⟨p.chars, p.written⟩

/-! ## Stages -/

namespace Stage

/-- The stage behind some lexemes, if the parser can read them. -/
def after? : Stage → List Lexeme → Option Stage
  | stage, [] => some stage
  | stage, lexeme :: rest =>
    match stage.next? lexeme with
    | none => none
    | some (_, stage) => after? stage rest

/-- Lexemes that lead from a stage to the end of a path. -/
def ending : Stage → List Lexeme
  | start => [.root]
  | path | field _ => []
  | dot => [.name "a"]
  | bracket | fieldBracket _ => [.quoted "", .closeBracket]
  | quoted _ | selection _ => [.closeBracket]

theorem exists_segments?_ending (stage : Stage) :
    ∃ segments, stage.segments? stage.ending = some segments := by
  cases stage <;> exact ⟨_, rfl⟩

theorem exists_written_of_mem_ending (stage : Stage) {lexeme : Lexeme}
    (h : lexeme ∈ stage.ending) : ∃ chars, lexeme.Written chars := by
  have hname : (Lexeme.name "a").Written ['a'] := .name (by decide +kernel) (by simp)
  have hquoted : (Lexeme.quoted "").Written ['\'', '\''] := .quoted (.inl rfl) .nil
  cases stage <;> simp only [ending, List.mem_cons, List.not_mem_nil, or_false] at h
  case start => subst h; exact ⟨_, .root⟩
  case dot => subst h; exact ⟨_, hname⟩
  case bracket | fieldBracket =>
    rcases h with rfl | rfl
    · exact ⟨_, hquoted⟩
    · exact ⟨_, .closeBracket⟩
  case quoted | selection => subst h; exact ⟨_, .closeBracket⟩

/-- The parser reads lexemes and then others from the stage that the first ones lead to. -/
theorem after?_append (stage : Stage) (lexemes rest : List Lexeme) :
    stage.after? (lexemes ++ rest) =
      (stage.after? lexemes).bind fun stage => stage.after? rest := by
  induction lexemes generalizing stage with
  | nil => rfl
  | cons lexeme lexemes ih =>
    rw [List.cons_append, after?, after?]
    rcases stage.next? lexeme with _ | ⟨_, stage'⟩
    · rfl
    · exact ih stage'

theorem exists_segments?_append_iff (stage : Stage) (lexemes rest : List Lexeme) :
    (∃ segments, stage.segments? (lexemes ++ rest) = some segments) ↔
      ∃ stage', stage.after? lexemes = some stage' ∧
        ∃ segments, stage'.segments? rest = some segments := by
  induction lexemes generalizing stage with
  | nil => simp [after?]
  | cons lexeme lexemes ih =>
    rw [List.cons_append, segments?, after?]
    rcases stage.next? lexeme with _ | ⟨done, stage'⟩
    · simp
    · simp only [Option.map_eq_some_iff, ← ih]
      constructor
      · rintro ⟨_, segments, hsegments, rfl⟩
        exact ⟨segments, hsegments⟩
      · rintro ⟨segments, hsegments⟩
        exact ⟨done ++ segments, segments, hsegments, rfl⟩

/-- Nothing leads back to the start. -/
theorem next?_ne_start {stage stage' : Stage} {lexeme : Lexeme} {done : List Segment}
    (h : stage.next? lexeme = some (done, stage')) : stage' ≠ start := by
  rintro rfl
  cases stage <;> cases lexeme <;> cases h

theorem after?_ne_start {stage stage' : Stage} {lexemes : List Lexeme} (hne : lexemes ≠ [])
    (h : stage.after? lexemes = some stage') : stage' ≠ start := by
  obtain ⟨front, last, rfl⟩ := (List.eq_nil_or_concat' lexemes).resolve_left hne
  rw [after?_append] at h
  obtain ⟨before, -, hlast⟩ := Option.bind_eq_some_iff.mp h
  rw [after?] at hlast
  rcases hnext : before.next? last with _ | ⟨done, behind⟩ <;> rw [hnext] at hlast
  · cases hlast
  · obtain rfl : behind = stage' := Option.some.inj hlast
    exact next?_ne_start hnext

end Stage

/-- Lexemes that can be written begin an expression when the parser can read them. -/
theorem begins_iff {lexemes : List Lexeme} (h : ∀ lexeme ∈ lexemes, ∃ chars, lexeme.Written chars) :
    Begins lexemes ↔ ∃ stage, Stage.start.after? lexemes = some stage := by
  constructor
  · rintro ⟨text, tokens, segments, -, hderives, ⟨more, hmore⟩⟩
    rw [← hmore, ← Stage.start_segments?_eq_some_iff] at hderives
    obtain ⟨stage, hstage, -⟩ :=
      (Stage.exists_segments?_append_iff _ lexemes more).mp ⟨segments, hderives⟩
    exact ⟨stage, hstage⟩
  · rintro ⟨stage, hstage⟩
    -- the lexemes and those that bring the stage to an end, as a text
    have hwritten : ∀ lexeme ∈ lexemes ++ stage.ending, ∃ chars, lexeme.Written chars := by
      intro lexeme hm
      rcases List.mem_append.mp hm with hm | hm
      · exact h lexeme hm
      · exact stage.exists_written_of_mem_ending hm
    obtain ⟨text, tokens, htokens, hlexemes⟩ := exists_tokenize hwritten
    obtain ⟨segments, hsegments⟩ := (Stage.exists_segments?_append_iff _ lexemes stage.ending).mpr
      ⟨stage, hstage, stage.exists_segments?_ending⟩
    refine ⟨text, tokens, segments, htokens, ?_, ?_⟩
    · rw [hlexemes]
      exact Stage.start_segments?_eq_some_iff.mp hsegments
    · rw [hlexemes]
      exact List.prefix_append lexemes stage.ending

/-! ## Where the parser stops -/

/-- The parser fails at the first token that the stage behind those before it cannot go on with,
or else at the end of the text. -/
theorem segmentsFrom_eq_error {length : Nat} {stage : Stage} {tokens : List Token} {fault : Fault}
    (h : segmentsFrom length stage tokens = .error fault) :
    (∃ before token after stage', tokens = before ++ token :: after ∧
        stage.after? (before.map Token.lexeme) = some stage' ∧
        stage'.next? token.lexeme = none ∧ fault.position = token.position) ∨
      ∃ stage', stage.after? (tokens.map Token.lexeme) = some stage' ∧
        fault = stage'.endFault length := by
  -- Induction on the tokens, for whatever stage the ones before have led to.
  induction tokens generalizing stage with
  | nil =>
    rw [segmentsFrom] at h
    split at h
    · cases h
    · exact .inr ⟨stage, rfl, (Except.error.inj h).symm⟩
  | cons token rest ih =>
    rw [segmentsFrom] at h
    rcases hnext : stage.next? token.lexeme with _ | ⟨done, behind⟩ <;> simp only [hnext] at h
    · cases h
      exact .inl ⟨[], token, rest, stage, rfl, rfl, hnext, rfl⟩
    · have hafter : ∀ lexemes, stage.after? (token.lexeme :: lexemes) = behind.after? lexemes := by
        intro lexemes
        rw [Stage.after?, hnext]
      have hrest : segmentsFrom length behind rest = .error fault := by
        rcases bind_eq_error_iff.mp h with h | ⟨others, -, h⟩
        · exact h
        · cases h
      rcases ih hrest with ⟨before, other, after, stage', rfl, hbefore, hnone, hposition⟩ | hend
      · refine .inl ⟨token :: before, other, after, stage', rfl, ?_, hnone, hposition⟩
        rw [List.map_cons, hafter, hbefore]
      · obtain ⟨stage', hstage', hfault⟩ := hend
        exact .inr ⟨stage', by rw [List.map_cons, hafter, hstage'], hfault⟩

/-- The parser fails at the first token that is impossible, or else at the end of the text, which
is its start when there are no tokens. -/
theorem position_of_segmentsFrom {text : String} {tokens : List Token}
    (htokens : tokenize text = .ok tokens) {length : Nat} {fault : Fault}
    (h : segmentsFrom length .start tokens = .error fault) :
    (∃ token, FirstImpossible tokens token ∧ fault.position = token.position) ∨
      Begins (tokens.map Token.lexeme) ∧
        fault.position = if tokens = [] then 0 else length := by
  have begins : ∀ front, front <+: tokens → (Begins (front.map Token.lexeme) ↔
      ∃ stage, Stage.start.after? (front.map Token.lexeme) = some stage) := by
    intro front hfront
    apply begins_iff
    intro lexeme hm
    exact exists_written_of_tokenize htokens ((hfront.map Token.lexeme).subset hm)
  rcases segmentsFrom_eq_error h with
    ⟨before, token, after, stage, rfl, hbefore, hnone, hposition⟩ | ⟨stage, hstage, rfl⟩
  · refine .inl ⟨token, ⟨before, after, rfl, ?_, ?_⟩, hposition⟩
    · rw [begins _ (by simp), List.map_append, Stage.after?_append, hbefore]
      simp [Stage.after?, hnone]
    · intro earlier hearlier
      have hbegins := (begins before (List.prefix_append ..)).mpr ⟨stage, hbefore⟩
      exact hbegins.of_prefix (hearlier.map Token.lexeme)
  · refine .inr ⟨(begins tokens List.prefix_rfl).mpr ⟨stage, hstage⟩, ?_⟩
    cases tokens with
    | nil =>
      obtain rfl : Stage.start = stage := Option.some.inj hstage
      rfl
    | cons token rest =>
      have hne := Stage.after?_ne_start (by simp) hstage
      rw [if_neg (List.cons_ne_nil _ _)]
      cases stage <;> first | rfl | exact absurd rfl hne

namespace Expression

/-- A text that falls into lexemes and is no expression, although it is short enough, is refused
at the first token with which no expression begins any more. When it is the beginning of an
expression, it is refused at its end, or at its start when it has no tokens. -/
theorem parseWithin_eq_error_of_not_derives {limits : Limits} {text : String} {tokens : List Token}
    (hlength : utf8Length text ≤ limits.maxLength) (htokens : tokenize text = .ok tokens)
    (hderives : ∀ segments, ¬ Derives (tokens.map Token.lexeme) segments) :
    ∃ e, parseWithin limits text = .error e ∧
      ((∃ token, FirstImpossible tokens token ∧ e.position = token.position) ∨
        Begins (tokens.map Token.lexeme) ∧
          e.position = if tokens = [] then 0 else utf8Length text) := by
  have hfails : ∃ fault, segmentsFrom (utf8Length text) .start tokens = .error fault := by
    cases hsegments : segmentsFrom (utf8Length text) .start tokens with
    | error fault => exact ⟨fault, rfl⟩
    | ok segments =>
      rw [segmentsFrom_eq_ok_iff, Stage.start_segments?_eq_some_iff] at hsegments
      exact absurd hsegments (hderives segments)
  obtain ⟨fault, hfault⟩ := hfails
  refine ⟨fault.within text, ?_, position_of_segmentsFrom htokens hfault⟩
  rw [parseWithin, readWithin, if_neg (Nat.not_lt.mpr hlength), htokens]
  simp only [bind, Except.bind, hfault]
  rfl

/-- A second selection behind a field: its bracket could still open another field, and its number
could not. -/
theorem parseWithin_second_selection :
    FirstImpossible [⟨.root, 0⟩, ⟨.dot, 1⟩, ⟨.name "é", 2⟩, ⟨.openBracket, 4⟩, ⟨.number 0, 5⟩,
        ⟨.closeBracket, 6⟩, ⟨.openBracket, 7⟩, ⟨.number 1, 8⟩, ⟨.closeBracket, 9⟩] ⟨.number 1, 8⟩ ∧
      ∃ e, parseWithin {} "$.é[0][1]" = .error e ∧ e.position = 8 := by
  have htokens : tokenize "$.é[0][1]" = .ok [⟨.root, 0⟩, ⟨.dot, 1⟩, ⟨.name "é", 2⟩,
      ⟨.openBracket, 4⟩, ⟨.number 0, 5⟩, ⟨.closeBracket, 6⟩, ⟨.openBracket, 7⟩, ⟨.number 1, 8⟩,
      ⟨.closeBracket, 9⟩] := by
    decide +kernel
  have hposition : (parseWithin {} "$.é[0][1]").mapError ParseError.position = .error 8 := by
    decide +kernel
  have hlength : utf8Length "$.é[0][1]" ≤ Limits.maxLength {} := by decide
  have hderives : ∀ segments, ¬ Derives [.root, .dot, .name "é", .openBracket, .number 0,
      .closeBracket, .openBracket, .number 1, .closeBracket] segments := by
    intro segments
    rw [← Stage.start_segments?_eq_some_iff]
    exact nofun
  obtain ⟨e, he, hcases⟩ := parseWithin_eq_error_of_not_derives hlength htokens hderives
  obtain h8 : e.position = 8 := by
    rw [he] at hposition
    exact Except.error.inj hposition
  refine ⟨?_, e, he, h8⟩
  rcases hcases with ⟨token, hfirst, htoken⟩ | ⟨-, hend⟩
  · -- there is one token at the position
    obtain ⟨before, after, htokens, -⟩ := id hfirst
    have hm : token ∈ before ++ token :: after := by simp
    rw [← htokens] at hm
    have hat : token.position = 8 := htoken.symm.trans h8
    obtain rfl : token = ⟨.number 1, 8⟩ := by
      simp only [List.mem_cons, List.not_mem_nil, or_false] at hm
      rcases hm with rfl | rfl | rfl | rfl | rfl | rfl | rfl | rfl | rfl <;>
        first | rfl | cases hat
    exact hfirst
  · rw [h8] at hend
    exact absurd hend (by decide)

end Expression

end RecordCipher
