import RecordCipher.Json.Fault
import RecordCipher.Text.Class
import RecordCipher.Text.Utf8

/-!
# Reading JSON documents piece by piece

A document is read from front to back, and reading stops at the first thing that is wrong
with it. What is asked for is known before it is read, so that a value of another type is
reported as soon as it is met, and nothing behind it is looked at.

## Main definitions

* `Reader`: reading from the characters of a document
* `Reader.string`, `Reader.word`, `Reader.unit`: values without parts
* `Reader.nextElement`, `Reader.nextKey`: going through arrays and objects
* `Reader.skipValue`: a value that nobody asked for
-/

namespace RecordCipher

/-- Reading from the characters of a document. -/
abbrev Reader := StateT (List Char) (Except JsonFault)

/-- The blanks of a document. -/
def isJsonBlank (c : Char) : Bool := c == ' ' || c == '\n' || c == '\t' || c == '\r'

/-- The value of a hexadecimal digit. -/
def hexDigit? (c : Char) : Option Nat :=
  if '0' ≤ c ∧ c ≤ '9' then some (c.toNat - 0x30)
  else if 'a' ≤ c ∧ c ≤ 'f' then some (c.toNat - 0x61 + 10)
  else if 'A' ≤ c ∧ c ≤ 'F' then some (c.toNat - 0x41 + 10)
  else none

/-- The value of four hexadecimal digits, and what is behind them. -/
def hexEscape (chars : List Char) : Except JsonFault (Nat × List Char) :=
  if byteLength (chars.take 4) < 4 then .error .ending
  else
    match chars with
    | a :: b :: c :: d :: rest =>
      match hexDigit? a, hexDigit? b, hexDigit? c, hexDigit? d with
      | some a, some b, some c, some d => .ok (((a * 16 + b) * 16 + c) * 16 + d, rest)
      | _, _, _, _ => .error .malformed
    | _ => .error .malformed

/-- The character of a `\u` escape, and what is behind it. A character beyond the first 65536
is written as two escapes, whose codes are a pair of surrogates. -/
def unicodeEscape (chars : List Char) : Except JsonFault (Char × List Char) := do
  let (high, rest) ← hexEscape chars
  if 0xDC00 ≤ high ∧ high ≤ 0xDFFF then throw .malformed
  else if high < 0xD800 ∨ 0xDBFF < high then return (Char.ofNat high, rest)
  else
    match rest with
    | [] => throw .ending
    | ['\\'] => throw .ending
    | '\\' :: 'u' :: rest =>
      let (low, rest) ← hexEscape rest
      if 0xDC00 ≤ low ∧ low ≤ 0xDFFF then
        return (Char.ofNat ((high - 0xD800) * 0x400 + (low - 0xDC00) + 0x10000), rest)
      else throw .malformed
    | _ => throw .malformed

/-- The next character of a string, or nothing at its closing quote, and what is behind it. -/
def stringUnit : List Char → Except JsonFault (Option Char × List Char)
  | [] => .error .ending
  | '"' :: rest => .ok (none, rest)
  | ['\\'] => .error .ending
  | '\\' :: c :: rest =>
    match c with
    | '"' | '\\' | '/' => .ok (some c, rest)
    | 'b' => .ok (some '\x08', rest)
    | 'f' => .ok (some '\x0c', rest)
    | 'n' => .ok (some '\n', rest)
    | 'r' => .ok (some '\r', rest)
    | 't' => .ok (some '\t', rest)
    | 'u' => (unicodeEscape rest).map fun (c, rest) => (some c, rest)
    | _ => .error .malformed
  | c :: rest => if c.toNat < 0x20 then .error .malformed else .ok (some c, rest)

/-- The characters of a string behind its opening quote, and what is behind the closing one.
Every character takes at least one of the text, so that the length of the text is fuel
enough. -/
def stringUnits : Nat → List Char → Except JsonFault (List Char × List Char)
  | 0, _ => .error .ending
  | fuel + 1, chars => do
    match ← stringUnit chars with
    | (none, rest) => return ([], rest)
    | (some c, rest) =>
      let (others, rest) ← stringUnits fuel rest
      return (c :: others, rest)

/-- Takes digits into a number as long as it stays below `2 ^ 64`. -/
def takeDigits (n : Nat) : List Char → Nat × List Char
  | [] => (n, [])
  | c :: rest =>
    if isDecimalDigit c then
      let m := n * 10 + (c.toNat - '0'.toNat)
      if m < UInt64.size then takeDigits m rest else (n, c :: rest)
    else (n, c :: rest)

/-- The greatest power of ten of double precision. -/
def greatestPower : Nat := 308

/-- A number times a power of ten, rounded after each step, or nothing when it becomes
infinite. Three steps of the greatest power lead from any number to zero. -/
def scaleByTen : Nat → Nat → Int → Option Nat
  | 0, bits, _ => some bits
  | fuel + 1, bits, exponent =>
    let power (k : Nat) := binary64.nearest false (tenTo k) 1
    if exponent.natAbs ≤ greatestPower then
      if 0 ≤ exponent then
        let product := binary64.product bits (power exponent.natAbs)
        if product = binary64.infinity false then none else some product
      else some (binary64.quotient bits (power exponent.natAbs))
    else if bits = 0 then some 0
    else if 0 ≤ exponent then none
    else scaleByTen fuel (binary64.quotient bits (power greatestPower)) (exponent + greatestPower)

/-- The number with a sign, digits and a power of ten. -/
def floatOfParts (negative : Bool) (digits : Nat) (exponent : Int) : Except JsonFault JsonNumber :=
  match scaleByTen 4 (binary64.nearest false digits 1) exponent with
  | some bits => .ok (.float (UInt64.ofNat (binary64.signBit negative + bits)))
  | none => .error .malformed

/-- The rest of a number from its exponent on. -/
def readExponent (negative : Bool) (digits : Nat) (exponent : Int) (chars : List Char) :
    Except JsonFault (JsonNumber × List Char) :=
  let (down, chars) := match chars with
    | '+' :: rest => (false, rest)
    | '-' :: rest => (true, rest)
    | chars => (false, chars)
  let written := chars.takeWhile isDecimalDigit
  let rest := chars.dropWhile isDecimalDigit
  if written.isEmpty then .error (if rest.isEmpty then .ending else .malformed)
  else
    let size := written.foldl (fun n c => n * 10 + (c.toNat - '0'.toNat)) 0
    if size < 0x80000000 then
      (floatOfParts negative digits (if down then exponent - size else exponent + size)).map
        fun n => (n, rest)
    else if digits ≠ 0 ∧ ¬ down then .error .malformed
    else .ok (.float (UInt64.ofNat (binary64.signBit negative)), rest)

/-- The rest of a number behind its fraction. -/
def afterFraction (negative : Bool) (digits : Nat) (exponent : Int) :
    List Char → Except JsonFault (JsonNumber × List Char)
  | 'e' :: rest | 'E' :: rest => readExponent negative digits exponent rest
  | rest => (floatOfParts negative digits exponent).map fun n => (n, rest)

/-- The rest of a number from its fraction on. Digits beyond `2 ^ 64` are read over. -/
def readFraction (negative : Bool) (digits : Nat) (exponent : Int) (chars : List Char) :
    Except JsonFault (JsonNumber × List Char) :=
  let (digits, rest) := takeDigits digits chars
  let taken := chars.length - rest.length
  match rest with
  | [] =>
    if taken = 0 then .error .ending else afterFraction negative digits (exponent - taken) []
  | c :: _ =>
    if isDecimalDigit c then
      afterFraction negative digits (exponent - taken) (rest.dropWhile isDecimalDigit)
    else if taken = 0 then .error .malformed
    else afterFraction negative digits (exponent - taken) rest

/-- The number that integer digits alone make. -/
def integerNumber (negative : Bool) (digits : Nat) : Except JsonFault JsonNumber :=
  if ¬ negative then .ok (.int digits)
  else if 0 < digits ∧ digits ≤ 0x8000000000000000 then .ok (.int (-digits))
  else floatOfParts true digits 0

/-- A number behind its sign. -/
def readNumber (negative : Bool) : List Char → Except JsonFault (JsonNumber × List Char)
  | [] => .error .ending
  | c :: rest =>
    if ¬ isDecimalDigit c then .error .malformed
    else if c = '0' ∧ (rest.head?.map isDecimalDigit).getD false then .error .malformed
    else
      let (digits, rest) := takeDigits 0 (c :: rest)
      let beyond := (rest.takeWhile isDecimalDigit).length
      match rest.dropWhile isDecimalDigit with
      | '.' :: rest => readFraction negative digits beyond rest
      | 'e' :: rest | 'E' :: rest => readExponent negative digits beyond rest
      | rest =>
        if beyond = 0 then (integerNumber negative digits).map fun n => (n, rest)
        else (floatOfParts negative digits beyond).map fun n => (n, rest)

/-- The rest of a literal name. -/
def readLiteral : List Char → List Char → Except JsonFault (List Char)
  | [], chars => .ok chars
  | _ :: _, [] => .error .ending
  | c :: expected, d :: rest => if c = d then readLiteral expected rest else .error .malformed

namespace Reader

/-- Stops with a fault. -/
def fail {β : Type} (fault : JsonFault) : Reader β := fun _ => .error fault

/-- Stops because the document does not hold what was asked for. -/
def refuse {β : Type} (fault : DataFault) : Reader β := fail (.data fault)

/-- Reads over blanks and looks at the character behind them. -/
def peek : Reader (Option Char) := fun chars =>
  let rest := chars.dropWhile isJsonBlank
  .ok (rest.head?, rest)

/-- Reads over one character. -/
def eat : Reader Unit := fun chars => .ok ((), chars.drop 1)

/-- The next character behind blanks that starts a value. -/
def peekValue : Reader Char := do
  match ← peek with
  | some c => return c
  | none => fail .ending

/-- The string behind an opening quote. -/
def stringBody : Reader String := fun chars =>
  (stringUnits (chars.length + 1) chars).map fun (content, rest) =>
    (String.ofList content, rest)

/-- A number behind its sign. -/
def number (negative : Bool) : Reader JsonNumber := fun chars => readNumber negative chars

/-- A literal name. -/
def literal (name : String) : Reader Unit := fun chars =>
  (readLiteral name.toList chars).map fun rest => ((), rest)

/-- What stands at the next character, for messages. Of arrays and objects nothing more is
read than that they are there. -/
def found : Reader Found := do
  match ← peek with
  | some 'n' => literal "null"; return .null
  | some 't' => literal "true"; return .boolean true
  | some 'f' => literal "false"; return .boolean false
  | some '"' => eat; return .string (← stringBody)
  | some '[' => return .sequence
  | some '\x7b' => return .map
  | some '-' => eat; return Found.ofJson (.number (← number true))
  | some c =>
    if isDecimalDigit c then return Found.ofJson (.number (← number false))
    else fail .malformed
  | none => fail .malformed

/-- Refuses the value that comes next for its type. -/
def wrongType {β : Type} (expected : String) : Reader β := do
  refuse (.invalidType (← found) expected)

/-- A string. -/
def string (expected : String) : Reader String := do
  match ← peekValue with
  | '"' => eat; stringBody
  | _ => wrongType expected

/-- A natural number below `2 ^ 64`. -/
def ofNumber : JsonNumber → Reader Nat
  | .int n =>
    if 0 ≤ n then return n.toNat else refuse (.invalidValue (.integer n) "usize")
  | .float bits => refuse (.invalidType (.float bits.toNat) "usize")

/-- A natural number below `2 ^ 64`. -/
def word : Reader Nat := do
  let c ← peekValue
  if c = '-' then
    eat
    ofNumber (← number true)
  else if isDecimalDigit c then ofNumber (← number false)
  else wrongType "usize"

/-- `null`. -/
def unit : Reader Unit := do
  match ← peekValue with
  | 'n' => literal "null"
  | _ => wrongType "unit"

/-- A value, or nothing for `null`. -/
def optional {β : Type} (read : Reader β) : Reader (Option β) := do
  match ← peek with
  | some 'n' => literal "null"; return none
  | _ => return some (← read)

/-- Whether an array has another element; `isFirst` tells that none was read before. -/
def nextElement (isFirst : Bool) : Reader Bool := do
  match ← peek with
  | none => fail .ending
  | some ']' => return false
  | some c =>
    if isFirst then return true
    else if c = ',' then
      eat
      match ← peek with
      | some ']' => fail .malformed
      | some _ => return true
      | none => fail .ending
    else fail .malformed

/-- The closing bracket of an array of which nothing more is asked for. -/
def closeArray : Reader Unit := do
  match ← peek with
  | some ']' => eat
  | some _ => fail .malformed
  | none => fail .ending

/-- The next key of an object, if it has another one. -/
def nextKey (isFirst : Bool) : Reader (Option String) := do
  match ← peek with
  | none => fail .ending
  | some '\x7d' => return none
  | some c =>
    if isFirst then
      if c = '"' then
        eat
        return some (← stringBody)
      else fail .malformed
    else if c = ',' then
      eat
      match ← peek with
      | some '"' => eat; return some (← stringBody)
      | some _ => fail .malformed
      | none => fail .ending
    else fail .malformed

/-- The colon behind a key. -/
def colon : Reader Unit := do
  match ← peek with
  | some ':' => eat
  | some _ => fail .malformed
  | none => fail .ending

/-- The end of the document. -/
def finish : Reader Unit := do
  match ← peek with
  | none => return
  | some _ => fail .malformed

end Reader

/-- Reads over a string behind its opening quote; what its escapes stand for does not matter. -/
def skipString : Nat → List Char → Except JsonFault (List Char)
  | 0, _ => .error .ending
  | _ + 1, [] => .error .ending
  | fuel + 1, c :: rest =>
    if c = '"' then .ok rest
    else if c = '\\' then
      match rest with
      | [] => .error .ending
      | 'u' :: rest => do
        let (_, rest) ← hexEscape rest
        skipString fuel rest
      | escaped :: rest =>
        if escaped ∈ ['"', '\\', '/', 'b', 'f', 'n', 'r', 't'] then skipString fuel rest
        else .error .malformed
    else if c.toNat < 0x20 then .error .malformed
    else skipString fuel rest

/-- Reads over digits, of which there has to be one. -/
def skipDigits (chars : List Char) : Except JsonFault (List Char) :=
  match chars with
  | c :: rest =>
    if isDecimalDigit c then .ok (rest.dropWhile isDecimalDigit) else .error .malformed
  | [] => .error .malformed

/-- Reads over the exponent of a number. -/
def skipExponent : List Char → Except JsonFault (List Char)
  | '+' :: rest | '-' :: rest => skipDigits rest
  | chars => skipDigits chars

/-- Reads over the rest of a number behind its integer digits. -/
def skipFraction : List Char → Except JsonFault (List Char)
  | '.' :: rest => do
    match ← skipDigits rest with
    | 'e' :: rest | 'E' :: rest => skipExponent rest
    | rest => return rest
  | 'e' :: rest | 'E' :: rest => skipExponent rest
  | rest => .ok rest

/-- Reads over a number behind its sign. -/
def skipNumber : List Char → Except JsonFault (List Char)
  | '0' :: rest =>
    if (rest.head?.map isDecimalDigit).getD false then .error .malformed else skipFraction rest
  | chars => do
    let rest ← skipDigits chars
    skipFraction rest

mutual

/-- Reads over a value. -/
def skipValue : Nat → List Char → Except JsonFault (List Char)
  | 0, _ => .error .malformed
  | fuel + 1, chars =>
    match chars.dropWhile isJsonBlank with
    | [] => .error .ending
    | 'n' :: rest => readLiteral ['u', 'l', 'l'] rest
    | 't' :: rest => readLiteral ['r', 'u', 'e'] rest
    | 'f' :: rest => readLiteral ['a', 'l', 's', 'e'] rest
    | '-' :: rest => skipNumber rest
    | '"' :: rest => skipString fuel rest
    | '[' :: rest =>
      match rest.dropWhile isJsonBlank with
      | [] => .error .ending
      | ']' :: rest => .ok rest
      | rest => skipElements fuel rest
    | '\x7b' :: rest =>
      match rest.dropWhile isJsonBlank with
      | [] => .error .ending
      | '\x7d' :: rest => .ok rest
      | rest => skipMembers fuel rest
    | c :: rest => if isDecimalDigit c then skipNumber (c :: rest) else .error .malformed

/-- Reads over the elements of an array and its closing bracket. -/
def skipElements : Nat → List Char → Except JsonFault (List Char)
  | 0, _ => .error .malformed
  | fuel + 1, chars => do
    let rest ← skipValue fuel chars
    match rest.dropWhile isJsonBlank with
    | [] => throw .ending
    | ',' :: rest => skipElements fuel rest
    | ']' :: rest => return rest
    | _ => throw .malformed

/-- Reads over the members of an object and its closing brace. -/
def skipMembers : Nat → List Char → Except JsonFault (List Char)
  | 0, _ => .error .malformed
  | fuel + 1, chars =>
    match chars.dropWhile isJsonBlank with
    | [] => .error .ending
    | '"' :: rest => do
      let rest ← skipString fuel rest
      match rest.dropWhile isJsonBlank with
      | [] => throw .ending
      | ':' :: rest =>
        let rest ← skipValue fuel rest
        match rest.dropWhile isJsonBlank with
        | [] => throw .ending
        | ',' :: rest => skipMembers fuel rest
        | '\x7d' :: rest => return rest
        | _ => throw .malformed
      | _ => throw .malformed
    | _ => .error .malformed

end

/-- Reads over a value that nobody asked for. Every step takes a character and goes at most
one level down, so that twice the length of the text is fuel enough. -/
def Reader.skip : Reader Unit := fun chars =>
  (skipValue (2 * chars.length + 2) chars).map fun rest => ((), rest)

end RecordCipher
