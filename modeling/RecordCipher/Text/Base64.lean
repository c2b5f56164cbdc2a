import RecordCipher.Text.Utf8

/-!
# Base64

The standard alphabet, with padding that is required and canonical: every byte string has
exactly one text, and every other text is refused with the place where it goes wrong.

## Main definitions

* `encodeBase64`: the text of a byte string
* `Base64Error`: why a text is refused
* `decodeBase64`: the byte string of a text
-/

namespace RecordCipher

/-- The symbol of a six-bit number. -/
def base64Symbol (n : Nat) : Char :=
  if n < 26 then Char.ofNat (0x41 + n)
  else if n < 52 then Char.ofNat (0x61 + (n - 26))
  else if n < 62 then Char.ofNat (0x30 + (n - 52))
  else if n = 62 then '+'
  else '/'

/-- The six-bit number of a symbol. -/
def base64Digit (b : Nat) : Option Nat :=
  if 0x41 ≤ b ∧ b ≤ 0x5A then some (b - 0x41)
  else if 0x61 ≤ b ∧ b ≤ 0x7A then some (b - 0x61 + 26)
  else if 0x30 ≤ b ∧ b ≤ 0x39 then some (b - 0x30 + 52)
  else if b = 0x2B then some 62
  else if b = 0x2F then some 63
  else none

/-- The byte of the padding sign. -/
def padding : Nat := 0x3D

/-- The symbols of a byte string: four for every three bytes, the last four padded. -/
def base64Symbols : Bytes → List Char
  | [] => []
  | [a] =>
    let n := a.toNat
    [base64Symbol (n / 4), base64Symbol (n % 4 * 16), '=', '=']
  | [a, b] =>
    let n := a.toNat * 256 + b.toNat
    [base64Symbol (n / 1024), base64Symbol (n / 16 % 64), base64Symbol (n % 16 * 4), '=']
  | a :: b :: c :: rest =>
    let n := (a.toNat * 256 + b.toNat) * 256 + c.toNat
    base64Symbol (n / 262144) :: base64Symbol (n / 4096 % 64) ::
      base64Symbol (n / 64 % 64) :: base64Symbol (n % 64) :: base64Symbols rest

/-- The Base64 text of a byte string. -/
def encodeBase64 (raw : Bytes) : String :=
  String.ofList (base64Symbols raw)

/-- Why a text is not the Base64 text of any byte string. -/
inductive Base64Error where
  /-- A byte that is no symbol, or padding out of place. -/
  | symbol (byte offset : Nat)
  /-- A text that ends inside a byte. -/
  | length (count : Nat)
  /-- A last symbol with bits that belong to no byte. -/
  | lastSymbol (byte offset : Nat)
  /-- Padding that does not fill up the last four symbols. -/
  | padding
  deriving Repr, DecidableEq

/-- The text of a refusal. -/
def Base64Error.message : Base64Error → String
  | symbol byte offset => s!"Invalid symbol {byte}, offset {offset}."
  | length count => s!"Invalid input length: {count}"
  | lastSymbol byte offset => s!"Invalid last symbol {byte}, offset {offset}."
  | padding => "Invalid padding"

/-- The digits and the number of padding signs of the last bytes of a text. `index` counts
these bytes, `offset` is where they start, and `sign` is the index of the first padding sign.
Padding cannot be among the first two, and nothing but padding follows it. -/
def readTail (offset : Nat) : List Nat → (index : Nat) → (sign : Option Nat) →
    Except Base64Error (List Nat × Nat)
  | [], _, _ => .ok ([], 0)
  | b :: rest, index, sign =>
    if b = padding then
      if index < 2 then .error (.symbol b (offset + index))
      else do
        let (digits, signs) ← readTail offset rest (index + 1) (some (sign.getD index))
        return (digits, signs + 1)
    else
      match sign with
      | some first => .error (.symbol padding (offset + first))
      | none =>
        match base64Digit b with
        | none => .error (.symbol b (offset + index))
        | some digit => do
          let (digits, signs) ← readTail offset rest (index + 1) none
          return (digit :: digits, signs)

/-- The bytes of the last one to four symbols of a text. -/
def decodeTail (offset : Nat) (tail : List Nat) : Except Base64Error Bytes := do
  let (digits, signs) ← readTail offset tail 0 none
  if digits.length < 2 then throw (.length (offset + digits.length))
  if digits.length + signs ≠ 4 then throw .padding
  let last := tail.getD (digits.length - 1) 0
  match digits with
  | [p, q] =>
    if q % 16 ≠ 0 then throw (.lastSymbol last (offset + 1))
    return [UInt8.ofNat (p * 4 + q / 16)]
  | [p, q, r] =>
    if r % 4 ≠ 0 then throw (.lastSymbol last (offset + 2))
    return [UInt8.ofNat (p * 4 + q / 16), UInt8.ofNat (q % 16 * 16 + r / 4)]
  | p :: q :: r :: s :: _ =>
    return [UInt8.ofNat (p * 4 + q / 16), UInt8.ofNat (q % 16 * 16 + r / 4),
      UInt8.ofNat (r % 4 * 64 + s)]
  | _ => return []

/-- The digit of a symbol before the last four. -/
def innerDigit (offset b : Nat) : Except Base64Error Nat :=
  match base64Digit b with
  | some digit => .ok digit
  | none => .error (.symbol b offset)

/-- The bytes of the symbols from `offset` on. Four symbols with more behind them are three
bytes without padding. -/
def decodeSymbols (offset : Nat) : List Nat → Except Base64Error Bytes
  | [] => .ok []
  | a :: b :: c :: d :: e :: rest => do
    let p ← innerDigit offset a
    let q ← innerDigit (offset + 1) b
    let r ← innerDigit (offset + 2) c
    let s ← innerDigit (offset + 3) d
    let others ← decodeSymbols (offset + 4) (e :: rest)
    return UInt8.ofNat (p * 4 + q / 16) :: UInt8.ofNat (q % 16 * 16 + r / 4) ::
      UInt8.ofNat (r % 4 * 64 + s) :: others
  | tail => decodeTail offset tail

/-- The byte string of a Base64 text. A text one symbol too long whose last byte is no symbol
is refused for that byte before anything else is looked at. -/
def decodeBase64 (text : String) : Except Base64Error Bytes :=
  let symbols := (utf8 text).map UInt8.toNat
  match symbols.getLast? with
  | some last =>
    if symbols.length % 4 = 1 ∧ last ≠ padding ∧ base64Digit last = none then
      .error (.symbol last (symbols.length - 1))
    else decodeSymbols 0 symbols
  | none => .ok []

end RecordCipher
