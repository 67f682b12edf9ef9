/-!
# Doubles as whole numbers of units

Every finite double is a whole multiple of the smallest positive one, so exact arithmetic on doubles
is arithmetic on natural numbers once that smallest one is the unit. A finite double is a sign and a
*magnitude*, the number that its lower 63 bits spell. Magnitudes run in the order of the values they
stand for: the upper bits say by how many places the significand is shifted, and a significand that
overflows carries into them.

`nearest` is the way back. It takes any fraction of units to the nearest magnitude, and of two
equally near ones to the even one.
-/

namespace Lox.Number

/-- The number of units in one: a unit is the smallest positive double. -/
def unitsPerOne : Nat := Nat.pow 2 1074

/-- How far the significand of a magnitude is shifted up. -/
def shift (magnitude : Nat) : Nat := magnitude / Nat.pow 2 52 - 1

/-- The significand of a magnitude, a number below `2 ^ 53`. -/
def significand (magnitude : Nat) : Nat := magnitude - shift magnitude * Nat.pow 2 52

/-- The number of units that a magnitude stands for. -/
def units (magnitude : Nat) : Nat := significand magnitude * Nat.pow 2 (shift magnitude)

/-- The magnitude of infinity: every finite magnitude is smaller. -/
def infinity : Nat := 0x7FF * Nat.pow 2 52

/-- The whole number nearest to `n / d`; of two equally near ones the even one. -/
def divNearest (n d : Nat) : Nat :=
  let quotient := n / d
  match compare (2 * (n % d)) d with
  | .lt => quotient
  | .eq => quotient + quotient % 2
  | .gt => quotient + 1

/-- The magnitude nearest to `n / d` units; of two equally near ones the even one. -/
def nearest (n d : Nat) : Nat :=
  let places := (n / d).log2 - 52
  min (places * Nat.pow 2 52 + divNearest n (d * Nat.pow 2 places)) infinity

/-- What the bits of a double say. -/
inductive View where
  | nan
  | infinite (negative : Bool)
  | finite (negative : Bool) (magnitude : Nat)
  deriving Repr, DecidableEq

/-- Reads the bits of a double. -/
def view (x : Float) : View :=
  let bits := x.toBits.toNat
  let magnitude := bits % Nat.pow 2 63
  let negative := decide (Nat.pow 2 63 ≤ bits)
  if infinity < magnitude then .nan
  else if magnitude = infinity then .infinite negative
  else .finite negative magnitude

/-- The double that is not negative and has this magnitude. -/
def ofMagnitude (magnitude : Nat) : Float := Float.ofBits (UInt64.ofNat magnitude)

/-- Holds of the doubles that are whole numbers; infinities and NaN are none. -/
def isWhole (x : Float) : Bool :=
  match view x with
  | .finite _ magnitude => units magnitude % unitsPerOne == 0
  | _ => false

end Lox.Number
