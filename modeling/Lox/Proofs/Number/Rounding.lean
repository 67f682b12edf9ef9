import Mathlib
import Lox.Number.Shortest

/-!
# Rounding gives magnitudes back

A magnitude is rounded to itself: a fraction that is just the units of a finite magnitude is nearest to
that magnitude (`nearest_units`). So the exact decimal of a magnitude reads back, and whatever grid the
shortest one is taken from, it reads back too (`shortest_magnitude`).
-/

namespace Lox.Number

/-! ## Significands -/

section

variable (m : Nat)

theorem shift_add_significand : shift m * Nat.pow 2 52 + significand m = m := by
  simp only [significand, shift, Nat.pow_eq]
  omega

theorem significand_lt : significand m < 2 ^ 53 := by
  simp only [significand, shift, Nat.pow_eq]
  omega

/-- Only a significand that is not shifted may start with a zero. -/
theorem shift_eq_zero_or_le_significand : shift m = 0 ∨ 2 ^ 52 ≤ significand m := by
  simp only [significand, shift, Nat.pow_eq]
  omega

/-- The highest bit of the units says how far the significand is shifted. -/
theorem log2_units : (units m).log2 - 52 = shift m := by
  have upper := significand_lt m
  rw [units, Nat.pow_eq]
  rcases shift_eq_zero_or_le_significand m with hshift | lower
  -- a significand that is not shifted may be short, and then it has no bit to spare
  · rw [hshift, Nat.pow_zero, Nat.mul_one]
    have bits : (significand m).log2 ≤ 52 := by
      rcases Nat.eq_zero_or_pos (significand m) with hzero | hpos
      · rw [hzero]
        decide
      · exact Nat.le_of_lt_succ ((Nat.log2_lt (Nat.ne_of_gt hpos)).mpr upper)
    omega
  · have positive : 0 < significand m * 2 ^ shift m :=
      Nat.mul_pos (Nat.lt_of_lt_of_le (Nat.two_pow_pos 52) lower) (Nat.two_pow_pos _)
    have bits : (significand m * 2 ^ shift m).log2 = 52 + shift m := by
      refine (Nat.log2_eq_iff (Nat.ne_of_gt positive)).mpr ⟨?_, ?_⟩
      · rw [Nat.pow_add]
        exact Nat.mul_le_mul_right _ lower
      · rw [Nat.add_right_comm, Nat.pow_add]
        exact Nat.mul_lt_mul_of_pos_right upper (Nat.two_pow_pos _)
    omega

end

/-! ## Rounding what needs none -/

/-- A whole number is nearest to itself. -/
theorem divNearest_mul {d : Nat} (hd : 0 < d) (n : Nat) : divNearest (n * d) d = n := by
  have exactly : compare (2 * (n * d % d)) d = .lt := by
    rw [Nat.mul_mod_left, Nat.mul_zero]
    exact Nat.compare_eq_lt.mpr hd
  rw [divNearest]
  simp only [exactly, Nat.mul_div_left _ hd]

/-- The units of a magnitude are nearest to that magnitude. -/
theorem nearest_units {m : Nat} (hm : m ≤ infinity) {d : Nat} (hd : 0 < d) :
    nearest (units m * d) d = m := by
  have places : (units m * d / d).log2 - 52 = shift m := by
    rw [Nat.mul_div_left _ hd, log2_units]
  have scaled : units m * d = significand m * (d * Nat.pow 2 (shift m)) := by
    rw [units, Nat.mul_right_comm, Nat.mul_assoc]
  have positive : 0 < d * Nat.pow 2 (shift m) := Nat.mul_pos hd (Nat.two_pow_pos _)
  simp only [nearest, places]
  rw [scaled, divNearest_mul positive, shift_add_significand]
  exact Nat.min_eq_left hm

/-! ## Decimals that read back -/

section

variable {m : Nat}

/-- A decimal with just the units of a magnitude is rounded to it. -/
theorem Decimal.magnitude_eq {d : Decimal} (hm : m ≤ infinity)
    (h : d.coefficient * Nat.pow 10 d.exponent.toNat * unitsPerOne =
      units m * Nat.pow 10 (-d.exponent).toNat) : d.magnitude = m := by
  rw [Decimal.magnitude, h]
  exact nearest_units hm (Nat.pow_pos (Nat.succ_pos 9))

theorem mul_fives_mul_twos (n p : Nat) : n * Nat.pow 5 p * Nat.pow 2 p = n * Nat.pow 10 p := by
  rw [Nat.mul_assoc]
  exact congrArg (n * ·) (Nat.mul_pow 5 2 p).symm

/-- The exact decimal of a magnitude reads back. -/
theorem exact_magnitude (hm : m ≤ infinity) : (exact m).magnitude = m := by
  refine Decimal.magnitude_eq hm ?_
  have one : Nat.pow 10 0 = 1 := Nat.pow_zero 10
  unfold exact
  split
  · next hwhole =>
    have whole : units m / unitsPerOne * unitsPerOne = units m :=
      Nat.div_mul_cancel (Nat.dvd_of_mod_eq_zero hwhole)
    dsimp only [Int.toNat_zero, Int.neg_zero]
    rw [one, Nat.mul_one, Nat.mul_one, whole]
  -- a unit is `5 ^ 1074` times `10 ^ -1074`
  · have up : (-1074 : Int).toNat = 0 := rfl
    have down : (-(-1074) : Int).toNat = 1074 := rfl
    dsimp only
    rw [up, down, one, Nat.mul_one]
    unfold unitsPerOne
    generalize 1074 = p
    exact mul_fives_mul_twos _ p

/-- A neighbour on a grid is only taken if it reads back. -/
theorem neighbour?_magnitude {tie : Tie} {power : Int} {d : Decimal}
    (h : neighbour? tie m power = some d) : d.magnitude = m := by
  unfold neighbour? at h
  dsimp only at h
  split at h
  · next hlower =>
    obtain rfl := Option.some.inj h
    split
    · next hupper => exact hupper.1
    · exact hlower
  · split at h
    · next hupper =>
      obtain rfl := Option.some.inj h
      exact hupper
    · nomatch h

/-- The decimal with the fewest digits reads back. -/
theorem shortest_magnitude (tie : Tie) (hm : m ≤ infinity) : (shortest tie m).magnitude = m := by
  simp only [shortest]
  cases hfound : List.findSome? (neighbour? tie m) _ with
  | none => rw [Option.getD_none, exact_magnitude hm]
  | some d =>
    obtain ⟨power, -, hpower⟩ := List.exists_of_findSome?_eq_some hfound
    rw [Option.getD_some, neighbour?_magnitude hpower]

end

end Lox.Number
