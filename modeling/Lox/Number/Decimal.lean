import Lox.Number.Binary

/-!
# Decimals

A `Decimal` is a coefficient times a power of ten. It has an exact value, `toFloat` rounds that value
to the nearest double, and three texts: `positional` has no exponent, `pointed` is positional with a
point in every case, and `scientific` puts the point behind the first digit.
-/

namespace Lox.Number

/-- The decimal `coefficient * 10 ^ exponent`. -/
structure Decimal where
  coefficient : Nat
  exponent : Int
  deriving Repr, DecidableEq

namespace Decimal

/-- The decimal that a run of digits and the digits behind its point spell. -/
def ofDigits (whole fraction : List Char) : Decimal where
  coefficient := Nat.ofDigitChars 10 (whole ++ fraction) 0
  exponent := -fraction.length

/-- The magnitude of the nearest double. -/
def magnitude (d : Decimal) : Nat :=
  nearest (d.coefficient * Nat.pow 10 d.exponent.toNat * unitsPerOne)
    (Nat.pow 10 (-d.exponent).toNat)

/-- The nearest double. -/
def toFloat (d : Decimal) : Float := ofMagnitude d.magnitude

/-- The digits of the coefficient. -/
def digits (d : Decimal) : List Char := Nat.toDigits 10 d.coefficient

/-- The power of ten at which the first digit stands. -/
def leading (d : Decimal) : Int := d.digits.length - 1 + d.exponent

/-- The digits before the point. -/
def wholeDigits (d : Decimal) : List Char :=
  if 0 ≤ d.exponent then d.digits ++ List.replicate d.exponent.toNat '0'
  else
    let places := (-d.exponent).toNat
    if d.digits.length ≤ places then ['0'] else d.digits.take (d.digits.length - places)

/-- The digits behind the point. -/
def fractionDigits (d : Decimal) : List Char :=
  if 0 ≤ d.exponent then []
  else
    let places := (-d.exponent).toNat
    List.replicate (places - d.digits.length) '0' ++ d.digits.drop (d.digits.length - places)

/-- All digits written out, with a point only before a fraction. -/
def positional (d : Decimal) : String :=
  match d.fractionDigits with
  | [] => String.ofList d.wholeDigits
  | fraction => String.ofList (d.wholeDigits ++ '.' :: fraction)

/-- All digits written out, with at least one of them behind a point. -/
def pointed (d : Decimal) : String :=
  match d.fractionDigits with
  | [] => String.ofList (d.wholeDigits ++ ['.', '0'])
  | fraction => String.ofList (d.wholeDigits ++ '.' :: fraction)

/-- One digit before the point, and the power of ten with its sign. -/
def scientific (d : Decimal) : String :=
  let mantissa := match d.digits with
    | first :: second :: more => String.ofList (first :: '.' :: second :: more)
    | short => String.ofList short
  let sign := if d.leading < 0 then "-" else "+"
  mantissa ++ "e" ++ sign ++ toString d.leading.natAbs

end Decimal

end Lox.Number
