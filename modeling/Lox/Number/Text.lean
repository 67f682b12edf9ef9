import Lox.Number.Shortest

/-!
# The texts of a number

A number has four texts. Printing a value, printing a syntax tree and listing a token differ in what
becomes of whole numbers; the record of a token is a machine format with a point or an exponent in
every number. All four write a fraction with the fewest digits that read back.
-/

namespace Lox.Number

/-- The sign in front of a number. -/
def signText (negative : Bool) : String := if negative then "-" else ""

/-- The text of NaN. -/
def nanText : String := "NaN"

/-- The text of an infinity. -/
def infinityText (negative : Bool) : String := signText negative ++ "inf"

/-- The fewest digits that read back, without an exponent; a double halfway between two goes up. -/
def fractionText (negative : Bool) (magnitude : Nat) : String :=
  signText negative ++ (shortest .up magnitude).positional

/-- The exact digits of a magnitude that is a whole number. -/
def wholeText (negative : Bool) (magnitude : Nat) : String :=
  signText negative ++ toString (units magnitude / unitsPerOne)

/-- The text of a number as a value: a whole number has all its digits and no point. -/
def valueText (x : Float) : String :=
  match view x with
  | .nan => nanText
  | .infinite negative => infinityText negative
  | .finite negative magnitude =>
    if isWhole x then wholeText negative magnitude else fractionText negative magnitude

/-- The text of a number in a syntax tree: a whole number has all its digits and ends in `.0`. -/
def treeText (x : Float) : String :=
  match view x with
  | .nan => nanText
  | .infinite negative => infinityText negative
  | .finite negative magnitude =>
    if isWhole x then wholeText negative magnitude ++ ".0" else fractionText negative magnitude

/-- The text of a number in a list of tokens: a whole number below `2 ^ 63` has all its digits, ends
in `.0` and, if it is zero, has no sign; any other number has the fewest digits that read back. -/
def tokenText (x : Float) : String :=
  match view x with
  | .nan => nanText
  | .infinite negative => infinityText negative
  | .finite negative magnitude =>
    if isWhole x && units magnitude < Nat.pow 2 63 * unitsPerOne then
      wholeText (negative && magnitude != 0) magnitude ++ ".0"
    else fractionText negative magnitude

/-- The text of a number in the record of a token: an exponent where the first digit stands below
`10 ^ -5` or above `10 ^ 15`, and otherwise a point. -/
def recordText (x : Float) : String :=
  match view x with
  | .nan | .infinite _ => "null"
  | .finite negative magnitude =>
    let decimal : Decimal := if magnitude = 0 then ⟨0, 0⟩ else shortest .toEven magnitude
    let spelled :=
      if -5 ≤ decimal.leading && decimal.leading ≤ 15 then decimal.pointed else decimal.scientific
    signText negative ++ spelled

/-- Reads a decimal with an optional sign, point and exponent, or the name of an infinity or of NaN,
as a host writes them. -/
def ofText? (text : String) : Option Float :=
  let unsigned (cs : List Char) : Option Float :=
    if cs = "inf".toList then some (ofMagnitude infinity)
    else if cs = "NaN".toList then some (0.0 / 0.0)
    else
      let (whole, rest) := cs.span Char.isDigit
      let (fraction, rest) := match rest with
        | '.' :: more => more.span Char.isDigit
        | _ => ([], rest)
      let decimal := Decimal.ofDigits whole fraction
      if whole.isEmpty && fraction.isEmpty then none
      else match rest with
        | [] => some decimal.toFloat
        | mark :: more =>
          if mark = 'e' || mark = 'E' then
            let unmarked := if more.head? = some '+' then more.tail else more
            (String.ofList unmarked).toInt?.map fun (e : Int) =>
              ({ decimal with exponent := decimal.exponent + e } : Decimal).toFloat
          else none
  match text.toList with
  | '-' :: cs => (unsigned cs).map Neg.neg
  | cs => unsigned cs

end Lox.Number
