import RecordCipher.Text.Alphabetic
import RecordCipher.Text.Numeric

/-!
# Classes of characters

The classes that decide how a path expression falls apart into lexemes: letters and digits of
every script, and blanks.

## Main definitions

* `inRanges`: membership of a code point in an increasing list of ranges
* `isLetter`, `isLetterOrNumber`, `isBlank`: the classes, on characters
* `isIdentifierStart`, `isIdentifierPart`: what a bare field name starts and goes on with
* `isIdentifier`: the names that can stand bare after a dot
-/

namespace RecordCipher

/-- Whether a code point lies in one of the ranges, which are in increasing order: the search
stops at the first range that starts above it. -/
def inRanges : List (Nat × Nat) → Nat → Bool
  | [], _ => false
  | (first, last) :: rest, code =>
    if code < first then false else if code ≤ last then true else inRanges rest code

/-- An alphabetic character. -/
def isLetter (c : Char) : Bool :=
  inRanges alphabeticRanges c.toNat

/-- An alphabetic or numeric character. -/
def isLetterOrNumber (c : Char) : Bool :=
  isLetter c || inRanges numericRanges c.toNat

/-- The code points of the blanks: tab to carriage return, the space, and the spaces and line
separators beyond the first 128 characters. -/
def blankRanges : List (Nat × Nat) :=
  [(0x9, 0xd), (0x20, 0x20), (0x85, 0x85), (0xa0, 0xa0), (0x1680, 0x1680), (0x2000, 0x200a),
   (0x2028, 0x2029), (0x202f, 0x202f), (0x205f, 0x205f), (0x3000, 0x3000)]

/-- A white-space character. -/
def isBlank (c : Char) : Bool :=
  inRanges blankRanges c.toNat

/-- One of the ten digits `0` to `9`. -/
def isDecimalDigit (c : Char) : Bool :=
  decide ('0' ≤ c) && decide (c ≤ '9')

/-- The characters a bare field name starts with. -/
def isIdentifierStart (c : Char) : Bool :=
  isLetter c || c == '_'

/-- The characters a bare field name goes on with. -/
def isIdentifierPart (c : Char) : Bool :=
  isLetterOrNumber c || c == '_'

/-- Whether a field name can be written bare after a dot. -/
def isIdentifier (name : String) : Bool :=
  match name.toList with
  | [] => false
  | c :: rest => isIdentifierStart c && rest.all isIdentifierPart

end RecordCipher
