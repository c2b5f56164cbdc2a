/-!
# Binary floating-point numbers as bit patterns

A floating-point number is kept as the bits of its interchange format, so that nothing about
it is approximate: this module says which number a pattern stands for, and which pattern is
nearest to a quotient of natural numbers.

## Main definitions

* `twoTo`, `tenTo`: powers of two and of ten
* `BinaryFormat`, `binary32`, `binary64`: the interchange formats
* `FloatValue`, `BinaryFormat.decode`: the number a bit pattern stands for
* `FloatValue.sameNumber`: equality of numbers, where no NaN equals itself
* `BinaryFormat.nearest`: the pattern nearest to a quotient, ties going to the even pattern
* `BinaryFormat.product`, `BinaryFormat.quotient`: rounded products and quotients
-/

namespace RecordCipher

/-- A power of two. -/
def twoTo (n : Nat) : Nat := Nat.pow 2 n

/-- A power of ten. -/
def tenTo (n : Nat) : Nat := Nat.pow 10 n

/-- An interchange format: a sign bit, a biased exponent and a fraction. -/
structure BinaryFormat where
  /-- Width of the fraction. -/
  fractionBits : Nat
  /-- Width of the biased exponent. -/
  exponentBits : Nat
  deriving Repr, DecidableEq

/-- Single precision. -/
def binary32 : BinaryFormat := ⟨23, 8⟩

/-- Double precision. -/
def binary64 : BinaryFormat := ⟨52, 11⟩

/-- The number a bit pattern stands for; `finite` is `± significand * 2 ^ exponent`. -/
inductive FloatValue where
  /-- Not a number. -/
  | nan
  /-- One of the two infinities. -/
  | infinite (negative : Bool)
  /-- A finite number. -/
  | finite (negative : Bool) (significand : Nat) (exponent : Int)
  deriving Repr, DecidableEq

namespace FloatValue

/-- Equality of numbers: the two zeros are equal, and a NaN equals nothing. -/
def sameNumber : FloatValue → FloatValue → Bool
  | infinite n, infinite n' => n == n'
  | finite n m e, finite n' m' e' => (m == 0 && m' == 0) || (n == n' && m == m' && e == e')
  | _, _ => false

end FloatValue

namespace BinaryFormat

variable (f : BinaryFormat)

/-- The exponent field that marks infinities and NaNs. -/
def topExponent : Nat := twoTo f.exponentBits - 1

/-- The exponent of the last fraction bit in the least binade. -/
def leastExponent : Int := 2 - (twoTo (f.exponentBits - 1) : Int) - (f.fractionBits : Int)

/-- The number a bit pattern stands for. -/
def decode (bits : Nat) : FloatValue :=
  let fraction := bits % twoTo f.fractionBits
  let exponent := bits / twoTo f.fractionBits % twoTo f.exponentBits
  let negative := bits / twoTo (f.fractionBits + f.exponentBits) % 2 == 1
  if exponent = f.topExponent then
    if fraction = 0 then .infinite negative else .nan
  else if exponent = 0 then
    .finite negative fraction f.leastExponent
  else
    .finite negative (twoTo f.fractionBits + fraction) (f.leastExponent + exponent - 1)

/-- The sign bit in its place. -/
def signBit (negative : Bool) : Nat :=
  if negative then twoTo (f.fractionBits + f.exponentBits) else 0

/-- The pattern of an infinity. -/
def infinity (negative : Bool) : Nat :=
  f.signBit negative + f.topExponent * twoTo f.fractionBits

/-- `num / den` in units of `2 ^ exponent`: whole part and remainder over a denominator. -/
def scaled (num den : Nat) (exponent : Int) : Nat × Nat × Nat :=
  let num := num * twoTo (-exponent).toNat
  let den := den * twoTo exponent.toNat
  (num / den, num % den, den)

/-- The pattern nearest to `± num / den`. A tie goes to the even pattern, and what lies above
the greatest finite number is infinite. A carry out of the fraction moves into the exponent
field, which is the pattern of the next binade. -/
def nearest (negative : Bool) (num den : Nat) : Nat :=
  if num = 0 then f.signBit negative
  else
    let precision := f.fractionBits + 1
    let guess := max ((num.log2 : Int) - den.log2 - precision) f.leastExponent
    let exponent := if (scaled num den guess).1 < twoTo precision then guess else guess + 1
    let (whole, rest, unit) := scaled num den exponent
    let up := 2 * rest > unit || (2 * rest == unit && whole % 2 == 1)
    let rounded := if up then whole + 1 else whole
    let magnitude :=
      if rounded < twoTo f.fractionBits then rounded
      else (exponent - f.leastExponent).toNat * twoTo f.fractionBits + rounded
    f.signBit negative + min magnitude (f.topExponent * twoTo f.fractionBits)

/-- The magnitude of a finite number as a quotient; infinities and NaNs count as zero. -/
def magnitude (bits : Nat) : Nat × Nat :=
  match f.decode bits with
  | .finite _ significand exponent =>
    (significand * twoTo exponent.toNat, twoTo (-exponent).toNat)
  | _ => (0, 1)

/-- The pattern nearest to the product of two positive numbers. -/
def product (a b : Nat) : Nat :=
  let (num, den) := f.magnitude a
  let (num', den') := f.magnitude b
  f.nearest false (num * num') (den * den')

/-- The pattern nearest to the quotient of two positive numbers. -/
def quotient (a b : Nat) : Nat :=
  let (num, den) := f.magnitude a
  let (num', den') := f.magnitude b
  f.nearest false (num * den') (den * num')

end BinaryFormat

end RecordCipher
