/-!
# Lexemes of path expressions

## Main definitions

* `Lexeme`, `Token`: the units of a path expression, and where they start
* `ParseReason`, `ParseError`: why a text is no path expression, and where it goes wrong
-/

namespace RecordCipher

/-- A unit of a path expression. -/
inductive Lexeme where
  /-- `$` -/
  | root
  /-- `.` -/
  | dot
  /-- `[` -/
  | openBracket
  /-- `]` -/
  | closeBracket
  /-- `*` -/
  | wildcard
  /-- A bare name. -/
  | name (text : String)
  /-- A quoted text, without its quotes and with its escapes resolved. -/
  | quoted (text : String)
  /-- A number below `2 ^ 64`. -/
  | number (value : Nat)
  deriving Repr, DecidableEq

/-- How error messages refer to a lexeme. -/
def Lexeme.describe : Lexeme → String
  | root => "'$'"
  | dot => "'.'"
  | openBracket => "'['"
  | closeBracket => "']'"
  | wildcard => "'*'"
  | name text => "identifier '" ++ text ++ "'"
  | quoted text => "string '" ++ text ++ "'"
  | number value => "number " ++ toString value

/-- A lexeme and the byte offset of its first character. -/
structure Token where
  /-- The lexeme. -/
  lexeme : Lexeme
  /-- The byte offset of its first character. -/
  position : Nat
  deriving Repr, DecidableEq

/-- What a place in a path expression calls for. -/
inductive Expected where
  /-- The root, where an expression starts. -/
  | root
  /-- Another field, behind a complete path. -/
  | subscript
  /-- The name of a field, behind a dot. -/
  | name
  /-- The quoted name of a field, behind a bracket. -/
  | quotedName
  /-- A closing bracket. -/
  | closeBracket
  deriving Repr, DecidableEq

/-- How error messages refer to it. -/
def Expected.describe : Expected → String
  | root => "'$' at start of expression"
  | subscript => "'.' or '[' after complete path"
  | name => "identifier after '.'"
  | quotedName => "quoted field name after '['"
  | closeBracket => "']'"

/-- Why a text is no path expression within the limits. -/
inductive ParseReason where
  /-- More bytes than allowed. -/
  | tooLong (bytes limit : Nat)
  /-- More tasks than allowed. -/
  | tooManyTasks (count limit : Nat)
  /-- A character that no lexeme starts with. -/
  | unexpectedCharacter (c : Char)
  /-- A quoted text without its closing quote. -/
  | unterminatedString
  /-- A number that is too large for a position. -/
  | indexOutOfRange
  /-- No lexeme at all. -/
  | empty
  /-- A lexeme, or the end of the text, where something else is called for. -/
  | unexpected (expected : Expected) (found : Option Lexeme)
  deriving Repr, DecidableEq

/-- The text of a reason. -/
def ParseReason.message : ParseReason → String
  | tooLong bytes limit => s!"expression is {bytes} bytes long (max: {limit})"
  | tooManyTasks count limit => s!"expression compiles to {count} tasks (max: {limit})"
  | unexpectedCharacter c => "unexpected character '" ++ c.toString ++ "'"
  | unterminatedString => "unterminated string literal"
  | indexOutOfRange => "array index out of range"
  | empty => "empty expression"
  | unexpected expected found =>
    "expected " ++ expected.describe ++ ", found " ++
      (match found with
        | some lexeme => lexeme.describe
        | none => "end of input")

/-- A reason and the byte offset it applies to. -/
structure Fault where
  /-- The byte offset. -/
  position : Nat
  /-- The reason. -/
  reason : ParseReason
  deriving Repr, DecidableEq

/-- A text that is no path expression, and where it goes wrong. -/
structure ParseError where
  /-- The text. -/
  expression : String
  /-- The byte offset at which it goes wrong. -/
  position : Nat
  /-- Why. -/
  reason : ParseReason
  deriving Repr, DecidableEq

/-- A fault of a particular text. -/
def Fault.within (fault : Fault) (expression : String) : ParseError :=
  ⟨expression, fault.position, fault.reason⟩

/-- The text of an error. -/
def ParseError.message (e : ParseError) : String :=
  "Invalid path expression '" ++ e.expression ++ "' at position " ++ toString e.position ++
    ": " ++ e.reason.message ++
    "\n\nPath expressions must:\n- Start with '$'\n" ++
    "- Continue with '.field' or ['field'] subscripts\n" ++
    "- Optionally follow a field with [index] or [*]"

end RecordCipher
