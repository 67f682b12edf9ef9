import Lox.Number.Decimal

/-!
# The shortest decimal that reads back

Among the decimals that read back as a given double, `shortest` picks one with the fewest digits, and
of those the nearest to the double. The decimals with a given last place form a grid, and `shortest`
looks at the two neighbours of the double on one grid after the other: first the grid of powers of
ten just above the double, then the ones that have room for one, two, three … digits. If a grid point
reads back then one of the neighbours does, so the first grid that has such a neighbour is the one
with the fewest digits.

Seventeen digits are always enough. Should no grid answer, the exact value does: it has many digits,
and it reads back.
-/

namespace Lox.Number

/-- Which way a double goes that lies halfway between two decimals. -/
inductive Tie where
  | up
  | toEven
  deriving Repr, DecidableEq

/-- Says whether the upper one of `n / d` and the next whole number is chosen when both will do. -/
def Tie.prefersUpper (tie : Tie) (n d : Nat) : Bool :=
  match compare (2 * (n % d)) d with
  | .lt => false
  | .gt => true
  | .eq => match tie with
    | .up => true
    | .toEven => n / d % 2 == 1

/-- The power of ten of the first digit of a positive number of units. -/
def leadingPower (u : Nat) : Int :=
  if unitsPerOne ≤ u then (Nat.toDigits 10 (u / unitsPerOne)).length - 1
  else -(Nat.toDigits 10 ((unitsPerOne - 1) / u)).length

/-- The better neighbour of a magnitude on the grid of multiples of `10 ^ power`, if one reads back. -/
def neighbour? (tie : Tie) (magnitude : Nat) (power : Int) : Option Decimal :=
  let n := units magnitude * Nat.pow 10 (-power).toNat
  let d := unitsPerOne * Nat.pow 10 power.toNat
  let lower : Decimal := ⟨n / d, power⟩
  let upper : Decimal := ⟨n / d + 1, power⟩
  if lower.magnitude = magnitude then
    some (if upper.magnitude = magnitude ∧ tie.prefersUpper n d then upper else lower)
  else if upper.magnitude = magnitude then some upper
  else none

/-- The exact value of a magnitude as a decimal. -/
def exact (magnitude : Nat) : Decimal :=
  if units magnitude % unitsPerOne = 0 then ⟨units magnitude / unitsPerOne, 0⟩
  else ⟨units magnitude * Nat.pow 5 1074, -1074⟩

/-- The decimal with the fewest digits that reads back as a magnitude, and of those the nearest. -/
def shortest (tie : Tie) (magnitude : Nat) : Decimal :=
  let coarsest := leadingPower (units magnitude) + 1
  let grids := (List.range 18).map fun (finer : Nat) => coarsest - finer
  (grids.findSome? (neighbour? tie magnitude)).getD (exact magnitude)

end Lox.Number
