import RecordCipher.Number.Binary

/-!
# Shortest decimals

A floating-point number is written with the fewest significant digits that read back to it,
and among those with the digits nearest to it. Two layouts are needed: plain positional
notation, and the notation of JSON documents, which switches to an exponent for very large
and very small numbers and always shows that the number is not an integer.

## Main definitions

* `Decimal`: an unsigned decimal number `digits * 10 ^ exponent`
* `BinaryFormat.shortest`: the shortest decimal that reads back to a binary number
* `Decimal.positional`, `Decimal.scientific`: the two layouts
* `BinaryFormat.display`, `BinaryFormat.render`: the texts of a bit pattern
-/

namespace RecordCipher

/-- The number `digits * 10 ^ exponent`. -/
structure Decimal where
  /-- The significant digits, as one number. -/
  digits : Nat
  /-- The decimal place of the last digit. -/
  exponent : Int
  deriving Repr, DecidableEq

/-- Which of two equally near neighbours is taken. -/
inductive TieRule where
  /-- The greater one. -/
  | away
  /-- The one with an even last digit. -/
  | even
  deriving Repr, DecidableEq

/-- The number of digits of a natural number in base ten. -/
def digitCount (n : Nat) : Nat := (Nat.toDigits 10 n).length

/-- The least `p` with `num / den < 10 ^ p`, for a positive quotient. -/
def decimalPlace (num den : Nat) : Int :=
  if den ≤ num then digitCount (num / den) else 1 - digitCount ((den - 1) / num)

/-- The interval of the reals that read back to one binary number, over one denominator. -/
structure RoundingInterval where
  /-- The lower end. -/
  low : Nat
  /-- The number itself. -/
  value : Nat
  /-- The upper end. -/
  high : Nat
  /-- The denominator of all three. -/
  den : Nat
  /-- Whether the ends belong to the interval. -/
  closed : Bool
  deriving Repr, DecidableEq

namespace RoundingInterval

variable (r : RoundingInterval)

/-- The interval of `significand * 2 ^ exponent`. The gap below the first number of a binade
is half as wide as the gap above it, and the ends belong to the interval when the significand
is even. -/
def of (f : BinaryFormat) (significand : Nat) (exponent : Int) : RoundingInterval :=
  let unit := twoTo (exponent - 2).toNat
  let below := if significand = twoTo f.fractionBits then 1 else 2
  { low := (4 * significand - below) * unit
    value := 4 * significand * unit
    high := (4 * significand + 2) * unit
    den := twoTo (2 - exponent).toNat
    closed := significand % 2 == 0 }

/-- Whether `candidate * num / den` lies in the interval, for a power of ten `num / den`. -/
def holds (candidate num den : Nat) : Bool :=
  let point := candidate * num * r.den
  if r.closed then r.low * den ≤ point && point ≤ r.high * den
  else r.low * den < point && point < r.high * den

/-- The nearest multiple of `10 ^ place` inside the interval, when there is one. -/
def multiple? (tie : TieRule) (place : Int) : Option Nat :=
  let num := tenTo place.toNat
  let den := tenTo (-place).toNat
  let lower := r.value * den / (r.den * num)
  let rest := 2 * (r.value * den - lower * (r.den * num))
  let preferUpper := r.den * num < rest ||
    (rest == r.den * num && (tie == .away || lower % 2 == 1))
  match r.holds lower num den, r.holds (lower + 1) num den with
  | true, true => some (if preferUpper then lower + 1 else lower)
  | true, false => some lower
  | false, true => some (lower + 1)
  | false, false => none

/-- Tries one more digit at a time, from the given place downwards. -/
def search (tie : TieRule) : Nat → Int → Decimal
  | 0, place => ⟨r.value * tenTo (-place).toNat / (r.den * tenTo place.toNat), place⟩
  | more + 1, place =>
    match r.multiple? tie place with
    | some digits => if digits = 10 then ⟨1, place + 1⟩ else ⟨digits, place⟩
    | none => search tie more (place - 1)

end RoundingInterval

/-- The shortest decimal that reads back to `significand * 2 ^ exponent`, for a positive
significand. Seventeen digits are enough for every number of double precision. -/
def BinaryFormat.shortest (f : BinaryFormat) (tie : TieRule) (significand : Nat)
    (exponent : Int) : Decimal :=
  let r := RoundingInterval.of f significand exponent
  r.search tie 17 (decimalPlace r.value r.den - 1)

namespace Decimal

/-- A text of zeros. -/
def zeros (n : Nat) : String := String.ofList (List.replicate n '0')

/-- Digits with a point after the first `n` of them. -/
def pointAfter (n : Nat) (digits : String) : String :=
  String.ofList (digits.toList.take n) ++ "." ++ String.ofList (digits.toList.drop n)

/-- Positional notation, without a point when the number is an integer. -/
def positional (d : Decimal) : String :=
  let digits := toString d.digits
  let point := digits.length + d.exponent
  if 0 ≤ d.exponent then digits ++ zeros d.exponent.toNat
  else if 0 < point then pointAfter point.toNat digits
  else "0." ++ zeros (-point).toNat ++ digits

/-- An integer that is not zero, with its sign. -/
def signed (n : Int) : String := if 0 < n then "+" ++ toString n else toString n

/-- Positional notation for numbers of moderate size, with a fraction even when it is zero,
and one digit before the point with a signed exponent for all others. -/
def scientific (d : Decimal) : String :=
  let digits := toString d.digits
  let point := digits.length + d.exponent
  if 0 ≤ d.exponent ∧ point ≤ 16 then digits ++ zeros d.exponent.toNat ++ ".0"
  else if 0 < point ∧ point ≤ 16 then pointAfter point.toNat digits
  else if -5 < point ∧ point ≤ 0 then "0." ++ zeros (-point).toNat ++ digits
  else (if digits.length = 1 then digits else pointAfter 1 digits) ++ "e" ++ signed (point - 1)

end Decimal

namespace FloatValue

/-- The text of a number, given the text of its magnitude; a NaN has no sign. -/
def text (zero : String) (magnitude : Nat → Int → String) : FloatValue → String
  | nan => "NaN"
  | infinite negative => if negative then "-inf" else "inf"
  | finite negative significand exponent =>
    let unsigned := if significand = 0 then zero else magnitude significand exponent
    if negative then "-" ++ unsigned else unsigned

end FloatValue

/-- The positional text of a bit pattern: never an exponent, and no point for integers. -/
def BinaryFormat.display (f : BinaryFormat) (bits : Nat) : String :=
  (f.decode bits).text "0" fun m e => (f.shortest .away m e).positional

/-- The text of a bit pattern in a JSON document. -/
def BinaryFormat.render (f : BinaryFormat) (bits : Nat) : String :=
  (f.decode bits).text "0.0" fun m e => (f.shortest .even m e).scientific

end RecordCipher
