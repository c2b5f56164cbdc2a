import RecordCipher.Expression.Lexer
import RecordCipher.Expression.Limits
import RecordCipher.Expression.Syntax

/-!
# Reading path expressions

The grammar of path expressions is

    path       := '$' field* end
    field      := '.' NAME selection? | '[' QUOTED ']' selection?
    selection  := '[' (NUMBER | '*') ']'

A parse passes through stages, one between every two tokens. A bracket behind a field opens
either its selection or the next field; which of the two is settled by the token behind it,
so the stage between them stands for both.

## Main definitions

* `Stage`, `Stage.next?`, `Stage.finish?`: the stages, and what each can go on or end with
* `segmentsFrom`: the segments denoted by tokens
* `Expression.parseWithin`, `Expression.parse`: the expression denoted by a text
-/

namespace RecordCipher

/-- Where a parse stands between two tokens, with the segment that is not complete yet. -/
inductive Stage where
  /-- Before the root. -/
  | start
  /-- Behind the root or a selection: a complete path, which only a field can continue. -/
  | path
  /-- Behind a field: a complete path, which a selection can continue as well. -/
  | field (segment : Segment)
  /-- Behind a dot. -/
  | dot
  /-- Behind a bracket that can only open a field. -/
  | bracket
  /-- Behind a bracket that opens the selection of a field or the next field. -/
  | fieldBracket (segment : Segment)
  /-- Behind the quoted name of a field. -/
  | quoted (name : String)
  /-- Inside a selection, before its closing bracket. -/
  | selection (segment : Segment)
  deriving Repr, DecidableEq

namespace Stage

/-- What a stage calls for. -/
def expected : Stage → Expected
  | start => .root
  | path | field _ => .subscript
  | dot => .name
  | bracket | fieldBracket _ => .quotedName
  | quoted _ | selection _ => .closeBracket

/-- The segments completed by a lexeme and the stage behind it, if the lexeme can follow. -/
def next? : Stage → Lexeme → Option (List Segment × Stage)
  | start, .root => some ([], path)
  | path, .dot => some ([], dot)
  | path, .openBracket => some ([], bracket)
  | field s, .dot => some ([s], dot)
  | field s, .openBracket => some ([], fieldBracket s)
  | dot, .name n => some ([], field ⟨n, .dot, none⟩)
  | bracket, .quoted n => some ([], quoted n)
  | fieldBracket s, .quoted n => some ([s], quoted n)
  | fieldBracket s, .number i => some ([], selection { s with selection := some (.index i) })
  | fieldBracket s, .wildcard => some ([], selection { s with selection := some .every })
  | quoted n, .closeBracket => some ([], field ⟨n, .bracket, none⟩)
  | selection s, .closeBracket => some ([s], path)
  | _, _ => none

/-- The segments completed by the end of the text, if it can end here. -/
def finish? : Stage → Option (List Segment)
  | path => some []
  | field s => some [s]
  | _ => none

/-- The fault of a text of `length` bytes that ends where it cannot. -/
def endFault (length : Nat) : Stage → Fault
  | start => ⟨0, .empty⟩
  | stage => ⟨length, .unexpected stage.expected none⟩

end Stage

/-- The segments denoted by the tokens behind a stage of a text of `length` bytes. -/
def segmentsFrom (length : Nat) : Stage → List Token → Except Fault (List Segment)
  | stage, [] =>
    match stage.finish? with
    | some segments => .ok segments
    | none => .error (stage.endFault length)
  | stage, token :: rest =>
    match stage.next? token.lexeme with
    | none => .error ⟨token.position, .unexpected stage.expected (some token.lexeme)⟩
    | some (done, stage) => do
      let others ← segmentsFrom length stage rest
      return done ++ others

namespace Expression

/-- The expression denoted by a text, or the first fault: the length is checked first, then
the lexemes, the grammar, and the number of tasks. -/
def readWithin (limits : Limits) (text : String) : Except Fault Expression :=
  if utf8Length text > limits.maxLength then
    .error ⟨limits.maxLength, .tooLong (utf8Length text) limits.maxLength⟩
  else do
    let tokens ← tokenize text
    let segments ← segmentsFrom (utf8Length text) .start tokens
    let expression : Expression := ⟨text, segments⟩
    if expression.taskCount > limits.maxTasks then
      .error ⟨0, .tooManyTasks expression.taskCount limits.maxTasks⟩
    else .ok expression

/-- The expression denoted by a text within limits. -/
def parseWithin (limits : Limits) (text : String) : Except ParseError Expression :=
  (readWithin limits text).mapError (·.within text)

/-- The expression denoted by a text within the usual limits. -/
def parse (text : String) : Except ParseError Expression :=
  parseWithin {} text

end Expression

end RecordCipher
