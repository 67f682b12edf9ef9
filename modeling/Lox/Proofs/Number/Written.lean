import Lox.Number.Text
import Lox.Proofs.Number.Rounding
import Lox.Proofs.Token.Grammar

/-!
# Decimals written out

A decimal that is written out without an exponent is a number of the lexical grammar, and its value is that
of the decimal (`lexical_positional`): zeros in front of the digits do not count, and those behind them and
the point are what the exponent says (`ofDigits_written`). The text of a finite number is such a decimal, with
its sign (`valueText_eq`).
-/

namespace Lox.Number

namespace Decimal

variable (d : Decimal)

/-! ## Only digits are written -/

theorem digits_digits : Digits d.digits :=
  ⟨Nat.toDigits_ne_nil, fun _ => Nat.isDigit_of_mem_toDigits (by decide) (by decide)⟩

theorem isDigit_of_mem_zeros {n : Nat} {c : Char} (h : c ∈ List.replicate n '0') : c.isDigit := by
  rw [List.eq_of_mem_replicate h]
  rfl

theorem digits_wholeDigits : Digits d.wholeDigits := by
  obtain ⟨nonempty, digits⟩ := d.digits_digits
  unfold wholeDigits
  split
  · refine ⟨List.append_ne_nil_of_left_ne_nil nonempty _, fun c hc => ?_⟩
    exact (List.mem_append.mp hc).elim (digits c) isDigit_of_mem_zeros
  · dsimp only
    split
    · exact ⟨List.cons_ne_nil _ _, List.forall_mem_singleton.mpr rfl⟩
    · next hlong =>
      refine ⟨fun hnil => ?_, fun c hc => digits c (List.mem_of_mem_take hc)⟩
      rcases List.take_eq_nil_iff.mp hnil with hzero | hnil
      · exact hlong (Nat.le_of_sub_eq_zero hzero)
      · exact nonempty hnil

theorem isDigit_of_mem_fractionDigits {c : Char} (h : c ∈ d.fractionDigits) : c.isDigit := by
  unfold fractionDigits at h
  split at h
  · nomatch h
  · rcases List.mem_append.mp h with hzero | hdigit
    · exact isDigit_of_mem_zeros hzero
    · exact d.digits_digits.2 c (List.mem_of_mem_drop hdigit)

/-! ## What is written is the decimal -/

/-- As many digits stand behind the point as the exponent says. -/
theorem length_fractionDigits : d.fractionDigits.length = (-d.exponent).toNat := by
  unfold fractionDigits
  split
  · next hexponent => exact (Int.toNat_of_nonpos (Int.neg_nonpos_of_nonneg hexponent)).symm
  · rw [List.length_append, List.length_replicate, List.length_drop]
    omega

/-- With the point left out, all digits of the coefficient are there, between zeros. -/
theorem whole_append_fraction : ∃ zeros, d.wholeDigits ++ d.fractionDigits =
    List.replicate zeros '0' ++ d.digits ++ List.replicate d.exponent.toNat '0' := by
  unfold wholeDigits fractionDigits
  by_cases hexponent : 0 ≤ d.exponent
  · refine ⟨0, ?_⟩
    rw [if_pos hexponent, if_pos hexponent, List.append_nil]
    rfl
  · have none : d.exponent.toNat = 0 := Int.toNat_of_nonpos (Int.le_of_lt (Int.not_le.mp hexponent))
    rw [if_neg hexponent, if_neg hexponent, none]
    dsimp only
    split
    -- all digits are behind the point, and one more zero stands in front of it
    · next hshort =>
      refine ⟨(-d.exponent).toNat - d.digits.length + 1, ?_⟩
      rw [Nat.sub_eq_zero_of_le hshort, List.drop_zero, List.replicate_succ, List.replicate_zero,
        List.append_nil]
      rfl
    · next hlong =>
      refine ⟨0, ?_⟩
      rw [Nat.sub_eq_zero_of_le (Nat.le_of_not_le hlong), List.replicate_zero, List.nil_append,
        List.nil_append, List.append_nil, List.take_append_drop]

/-- What is written reads as the decimal, with an exponent that is not positive. -/
theorem ofDigits_written : ofDigits d.wholeDigits d.fractionDigits =
    ⟨Nat.pow 10 d.exponent.toNat * d.coefficient, -(-d.exponent).toNat⟩ := by
  obtain ⟨zeros, written⟩ := d.whole_append_fraction
  have coefficient : Nat.ofDigitChars 10 d.digits 0 = d.coefficient := Nat.ofDigitChars_ten_toDigits
  rw [ofDigits, written, length_fractionDigits, Nat.ofDigitChars_append, Nat.ofDigitChars_append,
    Nat.ofDigitChars_replicate_zero, Nat.ofDigitChars_replicate_zero, Nat.mul_zero, coefficient]
  rfl

theorem magnitude_written : (ofDigits d.wholeDigits d.fractionDigits).magnitude = d.magnitude := by
  have up : (-((-d.exponent).toNat : Int)).toNat = 0 := by omega
  have down : (- -((-d.exponent).toNat : Int)).toNat = (-d.exponent).toNat := by omega
  have one : Nat.pow 10 0 = 1 := Nat.pow_zero 10
  rw [ofDigits_written, magnitude, magnitude]
  dsimp only
  rw [up, down, one, Nat.mul_one, Nat.mul_comm (Nat.pow 10 _)]

/-- A decimal that is written out is a number of the lexical grammar. -/
theorem lexical_positional : Lexical (.kind (.number d.toFloat)) d.positional.toList := by
  have value : Segment.number d.wholeDigits d.fractionDigits = .kind (.number d.toFloat) := by
    rw [Segment.number, toFloat, magnitude_written, ← toFloat]
  rw [← value, positional]
  split
  · next hfraction =>
    rw [hfraction, String.toList_ofList]
    exact .whole d.digits_wholeDigits
  · next hfraction =>
    rw [String.toList_ofList]
    exact .fractional d.digits_wholeDigits ⟨hfraction, fun _ => d.isDigit_of_mem_fractionDigits⟩

end Decimal

/-! ## The text of a finite number -/

/-- The text of a whole number is the exact decimal, written out. -/
theorem wholeText_eq {magnitude : Nat} (h : units magnitude % unitsPerOne = 0) (negative : Bool) :
    wholeText negative magnitude = signText negative ++ (exact magnitude).positional := by
  rw [wholeText, exact, if_pos h, Nat.toString_eq_ofList_toDigits]
  simp [Decimal.positional, Decimal.fractionDigits, Decimal.wholeDigits, Decimal.digits]

/-- A finite number is written as a decimal that reads back. -/
theorem valueText_eq {x : Float} {negative : Bool} {magnitude : Nat}
    (hview : view x = .finite negative magnitude) (hfinite : magnitude < infinity) :
    ∃ d : Decimal, d.magnitude = magnitude ∧ valueText x = signText negative ++ d.positional := by
  have whole : isWhole x = (units magnitude % unitsPerOne == 0) := by
    rw [isWhole, hview]
  rw [valueText, hview]
  dsimp only
  rw [whole]
  split
  · next hwhole =>
    exact ⟨exact magnitude, exact_magnitude (Nat.le_of_lt hfinite), wholeText_eq (beq_iff_eq.mp hwhole) _⟩
  · exact ⟨shortest .up magnitude, shortest_magnitude .up (Nat.le_of_lt hfinite), rfl⟩

end Lox.Number
