import Lox.Proofs.Number.Bits
import Lox.Proofs.Number.Written

/-!
# Numbers in the text of a tree

A number that stands in a source is not negative (`view_ofMagnitude`). If it is finite, the text of a tree
has a numeral for it, which is a number of the lexical grammar and has its value (`lexical_treeText`).
-/

namespace Lox.Number

/-- A magnitude is the one of the double that it spells, and there is no sign. -/
theorem view_ofMagnitude {m : Nat} (h : m < infinity) : view (ofMagnitude m) = .finite false m := by
  have bound : m < 0x7FF * 2 ^ 52 := h
  have exponent : (BitVec.ofNat 11 (m / 2 ^ 52)).toNat = m / 2 ^ 52 := by
    rw [BitVec.toNat_ofNat]
    omega
  have mantissa : (BitVec.ofNat 52 m).toNat = m % 2 ^ 52 := BitVec.toNat_ofNat ..
  have finite : BitVec.ofNat 11 (m / 2 ^ 52) ≠ -1#11 := by
    intro last
    have last : m / 2 ^ 52 = 2047 := exponent.symm.trans (congrArg BitVec.toNat last)
    omega
  have apart : (BitVec.ofNat 11 (m / 2 ^ 52)).toNat * 2 ^ 52 + (BitVec.ofNat 52 m).toNat = m := by
    omega
  have bits := toBits_ofMagnitude (BitVec.ofNat 52 m) finite
  rw [apart] at bits
  refine view_of_bits h ?_
  rw [bits, UInt64.toNat_ofBitVec, toNat_fields, Nat.add_assoc, apart]
  rfl

/-- What is read is at most infinite, and if it is less, it is finite. -/
theorem Decimal.magnitude_lt {d : Decimal} (h : d.toFloat.isFinite = true) : d.magnitude < infinity := by
  refine Nat.lt_of_le_of_ne (Nat.min_le_right _ _) fun hinfinite => ?_
  rw [Decimal.toFloat, hinfinite] at h
  exact absurd h (by decide +kernel)

/-- A zero behind the point is one more digit and one more place. -/
theorem ofDigits_pointed (n : Nat) :
    Decimal.ofDigits (Nat.toDigits 10 n) ['0'] = ⟨10 * n, -(1 : Nat)⟩ := by
  rw [Decimal.ofDigits, Nat.ofDigitChars_append, Nat.ofDigitChars_ten_toDigits]
  rfl

/-- A zero behind the point does not change a whole number. -/
theorem magnitude_pointed {m : Nat} (hm : m ≤ infinity) (hwhole : units m % unitsPerOne = 0) :
    (Decimal.ofDigits (Nat.toDigits 10 (units m / unitsPerOne)) ['0']).magnitude = m := by
  have whole : units m / unitsPerOne * unitsPerOne = units m :=
    Nat.div_mul_cancel (Nat.dvd_of_mod_eq_zero hwhole)
  have up : (-((1 : Nat) : Int)).toNat = 0 := rfl
  have down : (- -((1 : Nat) : Int)).toNat = 1 := rfl
  have one : Nat.pow 10 0 = 1 := Nat.pow_zero 10
  have ten : Nat.pow 10 1 = 10 := Nat.pow_one 10
  refine Decimal.magnitude_eq hm ?_
  rw [ofDigits_pointed]
  dsimp only
  rw [up, down, one, ten, Nat.mul_one, Nat.mul_assoc, whole, Nat.mul_comm]

/-- A whole number that is not negative is written with a zero behind the point. -/
theorem toList_wholeText (m : Nat) : (wholeText false m ++ ".0").toList =
    Nat.toDigits 10 (units m / unitsPerOne) ++ '.' :: ['0'] := by
  rw [wholeText, Nat.toString_eq_ofList_toDigits]
  generalize Nat.toDigits 10 _ = digits
  rw [signText, if_neg Bool.false_ne_true, String.empty_append, String.toList_append, String.toList_ofList]
  rfl

/-- The value of a numeral is that of a decimal. -/
theorem exists_decimal {x : Float} {text : List Char} (h : Lexical (.kind (.number x)) text) :
    ∃ d : Decimal, d.toFloat = x := by
  generalize hcontent : Content.kind (.number x) = content at h
  cases h with
  | whole => cases hcontent; exact ⟨_, rfl⟩
  | fractional => cases hcontent; exact ⟨_, rfl⟩
  | _ => nomatch hcontent

/-- In the text of a tree, a finite number that is not negative is a numeral with its value. -/
theorem lexical_treeText {d : Decimal} (h : d.toFloat.isFinite = true) :
    Lexical (.kind (.number d.toFloat)) (treeText d.toFloat).toList := by
  have finite := Decimal.magnitude_lt h
  have hview : view d.toFloat = .finite false d.magnitude := view_ofMagnitude finite
  have whole : isWhole d.toFloat = (units d.magnitude % unitsPerOne == 0) := by
    rw [isWhole, hview]
  rw [treeText, hview]
  dsimp only
  rw [whole]
  split
  · next hwhole =>
    have value : Segment.number (Nat.toDigits 10 (units d.magnitude / unitsPerOne)) ['0'] =
        .kind (.number d.toFloat) := by
      rw [Segment.number, Decimal.toFloat, magnitude_pointed (Nat.le_of_lt finite) (beq_iff_eq.mp hwhole),
        ← Decimal.toFloat]
    rw [toList_wholeText, ← value]
    have zero : Digits ['0'] := ⟨List.cons_ne_nil _ _, List.forall_mem_singleton.mpr rfl⟩
    exact .fractional (Decimal.digits_digits ⟨_, 0⟩) zero
  · have value : (shortest .up d.magnitude).toFloat = d.toFloat := by
      rw [Decimal.toFloat, shortest_magnitude .up (Nat.le_of_lt finite), Decimal.toFloat]
    rw [fractionText, signText, if_neg Bool.false_ne_true, String.empty_append, ← value]
    exact Decimal.lexical_positional _

end Lox.Number
