import RecordCipher.Expression.Lexeme
import RecordCipher.Text.Class
import RecordCipher.Text.Utf8

/-!
# Splitting a path expression into lexemes

A cursor stands between two characters of a text. Reading from it skips blanks and takes the
longest lexeme that starts there, or one fault; either way the cursor moves on, so that reading
can be resumed behind a fault.

## Main definitions

* `Scanned`, `scan`: the lexeme or fault at the start of a list of characters
* `Cursor`, `Cursor.next`: a place in a text, and reading one token from it
* `tokenize`: all tokens of a text
-/

namespace RecordCipher

/-- The number written by a list of decimal digits. -/
def decimalValue (digits : List Char) : Nat :=
  digits.foldl (fun n c => n * 10 + (c.toNat - '0'.toNat)) 0

/-- Numbers of expressions are below this bound. -/
def wordSize : Nat := UInt64.size

/-- What was read: the lexeme or fault, the bytes it took, and the characters behind it. -/
structure Scanned where
  /-- The lexeme, or why there is none. -/
  outcome : Except ParseReason Lexeme
  /-- The number of bytes taken. -/
  size : Nat
  /-- The characters behind. -/
  rest : List Char

/-- The content of a quoted text behind its opening quote, the bytes up to and including the
closing quote, and the characters behind it. There is no content when the text ends first. A
backslash stands for the character behind it. -/
def readQuoted (quote : Char) : List Char → Option (List Char) × Nat × List Char
  | [] => (none, 0, [])
  | c :: rest =>
    if c = quote then (some [], c.utf8Size, rest)
    else if c = '\\' then
      match rest with
      | [] => (none, c.utf8Size, [])
      | escaped :: rest =>
        let (content, size, rest) := readQuoted quote rest
        (content.map (escaped :: ·), c.utf8Size + escaped.utf8Size + size, rest)
    else
      let (content, size, rest) := readQuoted quote rest
      (content.map (c :: ·), c.utf8Size + size, rest)

/-- The lexeme or fault that starts with `c`, a character that is not blank. -/
def scan (c : Char) (rest : List Char) : Scanned :=
  if c = '$' then ⟨.ok .root, 1, rest⟩
  else if c = '.' then ⟨.ok .dot, 1, rest⟩
  else if c = '[' then ⟨.ok .openBracket, 1, rest⟩
  else if c = ']' then ⟨.ok .closeBracket, 1, rest⟩
  else if c = '*' then ⟨.ok .wildcard, 1, rest⟩
  else if c = '\'' ∨ c = '"' then
    let (content, size, behind) := readQuoted c rest
    let outcome := match content with
      | some content => .ok (.quoted (String.ofList content))
      | none => .error .unterminatedString
    ⟨outcome, 1 + size, behind⟩
  else if isDecimalDigit c then
    let digits := c :: rest.takeWhile isDecimalDigit
    let value := decimalValue digits
    let outcome := if value < wordSize then .ok (.number value) else .error .indexOutOfRange
    ⟨outcome, byteLength digits, rest.dropWhile isDecimalDigit⟩
  else if isIdentifierStart c then
    let name := c :: rest.takeWhile isIdentifierPart
    ⟨.ok (.name (String.ofList name)), byteLength name, rest.dropWhile isIdentifierPart⟩
  else ⟨.error (.unexpectedCharacter c), c.utf8Size, rest⟩

/-- A place in a text: the characters behind it and the bytes before it. -/
structure Cursor where
  /-- The characters behind it. -/
  rest : List Char
  /-- The number of bytes before it. -/
  offset : Nat
  deriving Repr, DecidableEq

namespace Cursor

/-- The start of a text. -/
def start (text : String) : Cursor := ⟨text.toList, 0⟩

/-- The first place at or behind a cursor with no blank behind it. -/
def skipBlanks (cursor : Cursor) : Cursor :=
  ⟨cursor.rest.dropWhile isBlank,
    cursor.offset + byteLength (cursor.rest.takeWhile isBlank)⟩

/-- The next token or fault, nothing at the end of the text, and the place behind it. -/
def next (cursor : Cursor) : Option (Except Fault Token) × Cursor :=
  let here := cursor.skipBlanks
  match here.rest with
  | [] => (none, here)
  | c :: rest =>
    let scanned := scan c rest
    let outcome := match scanned.outcome with
      | .ok lexeme => .ok ⟨lexeme, here.offset⟩
      | .error reason => .error ⟨here.offset, reason⟩
    (some outcome, ⟨scanned.rest, here.offset + scanned.size⟩)

/-- The tokens behind a cursor, up to the first fault. Every token takes at least one
character, so the number of characters is fuel enough. -/
def tokens : Nat → Cursor → Except Fault (List Token)
  | 0, _ => .ok []
  | fuel + 1, cursor =>
    match cursor.next with
    | (none, _) => .ok []
    | (some (.error fault), _) => .error fault
    | (some (.ok token), behind) => do
      let others ← tokens fuel behind
      return token :: others

end Cursor

/-- All tokens of a text, or its first fault. -/
def tokenize (text : String) : Except Fault (List Token) :=
  let cursor := Cursor.start text
  Cursor.tokens (cursor.rest.length + 1) cursor

end RecordCipher
