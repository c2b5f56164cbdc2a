import RecordCipher.Text.Class
import RecordCipher.Text.Unprintable

/-!
# Quoted and escaped texts

## Main definitions

* `hexDigits`: a number in lower-case hexadecimal
* `quoteForMessage`: a text in double quotes, as error messages show the text they found
* `jsonString`: a text as a string of a JSON document
-/

namespace RecordCipher

/-- A number in lower-case hexadecimal, without leading zeros. -/
def hexDigits (n : Nat) : String :=
  String.ofList (Nat.toDigits 16 n)

/-- Whether a character is spelled out inside a quotation. -/
def isUnprintable (c : Char) : Bool :=
  c != ' ' && inRanges unprintableRanges c.toNat

/-- A character inside a quotation of an error message. -/
def quotedChar (c : Char) : String :=
  match c with
  | '"' => "\\\""
  | '\\' => "\\\\"
  | '\n' => "\\n"
  | '\r' => "\\r"
  | '\t' => "\\t"
  | '\x00' => "\\0"
  | c => if isUnprintable c then "\\u\x7b" ++ hexDigits c.toNat ++ "\x7d" else c.toString

/-- A text in double quotes, with everything that could not be shown spelled out. -/
def quoteForMessage (text : String) : String :=
  "\"" ++ String.join (text.toList.map quotedChar) ++ "\""

/-- A character inside a string of a JSON document: only the quote, the backslash and the
control characters are escaped. -/
def jsonChar (c : Char) : String :=
  match c with
  | '"' => "\\\""
  | '\\' => "\\\\"
  | '\n' => "\\n"
  | '\r' => "\\r"
  | '\t' => "\\t"
  | '\x08' => "\\b"
  | '\x0c' => "\\f"
  | c =>
    if c.toNat < 0x10 then "\\u000" ++ hexDigits c.toNat
    else if c.toNat < 0x20 then "\\u00" ++ hexDigits c.toNat
    else c.toString

/-- A text as a string of a JSON document. -/
def jsonString (text : String) : String :=
  "\"" ++ String.join (text.toList.map jsonChar) ++ "\""

end RecordCipher
