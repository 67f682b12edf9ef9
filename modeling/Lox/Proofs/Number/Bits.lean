import Mathlib
import Lox.Number.Binary

/-!
# The bits of finite doubles

The bits of a double are a sign, an exponent and a mantissa, one behind the other. If the double is
finite, it is packed into the bits from which it was unpacked (`pack_unpack_fields`), and to negate it is
to negate the sign (`toBits_neg`). So a finite double is the one that its magnitude and its sign spell
(`view_of_isFinite`).
-/

namespace Lox.Number

open Float.Model (Format UnpackedFloat)
open Float.Model.UnpackedFloat (Sign packComponents unpackSign unpackExponent unpackMantissa
  unpackExponent_packComponents unpackMantissa_packComponents)

/-- The bits of a double with this sign, exponent and mantissa. -/
def fields (sign : Sign) (exponent : BitVec 11) (mantissa : BitVec 52) : BitVec 64 :=
  packComponents Format.binary64 sign exponent mantissa

section

variable (sign : Sign) (exponent : BitVec 11) (mantissa : BitVec 52)

/-! ## The fields -/

theorem toNat_fields : (fields sign exponent mantissa).toNat =
    sign.toBitVec.toNat * 2 ^ 63 + exponent.toNat * 2 ^ 52 + mantissa.toNat := by
  show (sign.toBitVec ++ exponent ++ mantissa).toNat = _
  have lower := mantissa.isLt
  have middle := exponent.isLt
  rw [BitVec.toNat_append, BitVec.toNat_append, Nat.shiftLeft_eq, Nat.shiftLeft_eq,
    Nat.mul_comm _ (2 ^ 52), Nat.mul_comm _ (2 ^ 11), ← Nat.two_pow_add_eq_or_of_lt lower,
    ← Nat.two_pow_add_eq_or_of_lt middle]
  omega

theorem exists_fields (bits : BitVec 64) : ∃ sign exponent mantissa,
    bits = fields sign exponent mantissa := by
  have bound := bits.isLt
  refine ⟨if 2 ^ 63 ≤ bits.toNat then .negative else .positive, .ofNat 11 (bits.toNat / 2 ^ 52),
    .ofNat 52 bits.toNat, BitVec.eq_of_toNat_eq ?_⟩
  rw [toNat_fields, BitVec.toNat_ofNat, BitVec.toNat_ofNat]
  split
  · show bits.toNat = 1 * 2 ^ 63 + _ + _
    omega
  · show bits.toNat = 0 * 2 ^ 63 + _ + _
    omega

theorem sign_fields :
    Sign.ofBitVec (@unpackSign Format.binary64 (fields sign exponent mantissa)) = sign := by
  show Sign.ofBitVec ((sign.toBitVec ++ exponent ++ mantissa).extractLsb' 63 1) = sign
  rw [BitVec.extractLsb'_append_eq_of_le (by decide), BitVec.extractLsb'_append_eq_of_le (by decide)]
  cases sign <;> rfl

theorem exponent_fields :
    @unpackExponent Format.binary64 (fields sign exponent mantissa) = exponent :=
  unpackExponent_packComponents

theorem mantissa_fields :
    @unpackMantissa Format.binary64 (fields sign exponent mantissa) = mantissa :=
  unpackMantissa_packComponents

/-! ## Unpacking and packing -/

/-- To negate a double is to negate its sign. -/
theorem neg_unpack_fields :
    (UnpackedFloat.unpack Format.binary64 (fields sign exponent mantissa)).neg =
      UnpackedFloat.unpack Format.binary64 (fields (-sign) exponent mantissa) := by
  simp only [UnpackedFloat.unpack, sign_fields, exponent_fields, mantissa_fields]
  split
  · split <;> rfl
  · split
    · split <;> rfl
    · rfl

theorem pack_finite (m : Nat) (e : Int) (h : 0 < m) :
    UnpackedFloat.pack Format.binary64 (.finite sign m e h) =
      if 2048 ≤ (e + 1075).toNat + 1 then UnpackedFloat.packedInfinity Format.binary64 sign
      else if m.log2 + 1 = 53 then fields sign (.ofNat 11 (e + 1075).toNat) (.ofNat 52 m)
      else fields sign 0#11 (.ofNat 52 m) := by
  have bias : e + 1075 = e + (1023 : Nat) + (52 : Nat) := (Int.add_assoc e 1023 52).symm
  rw [bias]
  rfl

/-- A mantissa without a leading one is packed below the exponent zero. -/
theorem pack_subnormal (h : 0 < mantissa.toNat) :
    UnpackedFloat.pack Format.binary64 (.finite sign mantissa.toNat (-1074) h) =
      fields sign 0#11 mantissa := by
  have few : mantissa.toNat.log2 + 1 ≠ 53 := by
    have := (Nat.log2_lt (Nat.ne_of_gt h)).mpr mantissa.isLt
    omega
  rw [pack_finite, if_neg (by decide), if_neg few, BitVec.ofNat_toNat, BitVec.setWidth_eq]

variable {exponent}

/-- The leading one of a mantissa is not packed. -/
theorem pack_normal (hlast : exponent ≠ -1#11) (h : 0 < (1#1 ++ mantissa).toNat) :
    UnpackedFloat.pack Format.binary64
      (.finite sign (1#1 ++ mantissa).toNat (exponent.toNat - 1075) h) =
        fields sign exponent mantissa := by
  have value : (1#1 ++ mantissa).toNat = 2 ^ 52 + mantissa.toNat := by
    rw [BitVec.toNat_append, Nat.shiftLeft_eq, Nat.mul_comm,
      ← Nat.two_pow_add_eq_or_of_lt mantissa.isLt]
    rfl
  -- the one is the highest bit, so the number is normal, and it is cut off with what does not fit
  have bits : (1#1 ++ mantissa).toNat.log2 = 52 :=
    (Nat.log2_eq_iff (Nat.ne_of_gt h)).mpr (by omega)
  have lower : BitVec.ofNat 52 (1#1 ++ mantissa).toNat = mantissa := by
    apply BitVec.eq_of_toNat_eq
    rw [BitVec.toNat_ofNat, value]
    omega
  have finite : exponent.toNat ≠ 2047 := fun h => hlast (BitVec.eq_of_toNat_eq h)
  have bound := exponent.isLt
  have biased : ((exponent.toNat : Int) - 1075 + 1075).toNat = exponent.toNat := by omega
  rw [pack_finite, biased, bits, if_neg (by omega), if_pos rfl, lower, BitVec.ofNat_toNat,
    BitVec.setWidth_eq]

/-- Finite doubles are packed into the bits from which they were unpacked. -/
theorem pack_unpack_fields (h : exponent ≠ -1#11) :
    UnpackedFloat.pack Format.binary64
      (UnpackedFloat.unpack Format.binary64 (fields sign exponent mantissa)) =
        fields sign exponent mantissa := by
  simp only [UnpackedFloat.unpack, sign_fields, exponent_fields, mantissa_fields]
  split
  · contradiction
  · split
    · next hexponent =>
      subst hexponent
      split
      · next hmantissa =>
        subst hmantissa
        rfl
      · exact pack_subnormal _ _ _
    · exact pack_normal _ _ h _

end

/-! ## Finite doubles -/

theorem eq_of_toBits_eq {x y : Float} (h : x.toBits = y.toBits) : x = y := by
  obtain ⟨⟨bits, _⟩⟩ := x
  obtain ⟨⟨bits', _⟩⟩ := y
  obtain rfl : bits = bits' := h
  rfl

theorem isNaN_of_isFinite {x : Float} (h : x.isFinite = true) : x.isNaN = false := by
  have finite : x.toModel.unpack.isFinite = true := h
  show x.toModel.unpack.isNaN = false
  cases hx : x.toModel.unpack with
  | notANumber =>
    rw [hx] at finite
    nomatch finite
  | _ => rfl

/-- What it takes to be finite is another exponent than the last one. -/
theorem exists_fields_of_isFinite {x : Float} (h : x.isFinite = true) :
    ∃ sign exponent mantissa, exponent ≠ -1#11 ∧
      x.toBits = .ofBitVec (fields sign exponent mantissa) := by
  obtain ⟨sign, exponent, mantissa, hbits⟩ := exists_fields x.toBits.toBitVec
  refine ⟨sign, exponent, mantissa, ?_, congrArg UInt64.ofBitVec hbits⟩
  -- the last exponent is that of infinities and NaN
  rintro rfl
  have finite : (UnpackedFloat.unpack Format.binary64 x.toBits.toBitVec).isFinite = true := h
  simp only [hbits, UnpackedFloat.unpack, exponent_fields, if_true] at finite
  split at finite <;> nomatch finite

section

variable {sign : Sign} {exponent : BitVec 11} {mantissa : BitVec 52}

theorem toBits_ofBits_fields (h : exponent ≠ -1#11) :
    (Float.ofBits (.ofBitVec (fields sign exponent mantissa))).toBits =
      .ofBitVec (fields sign exponent mantissa) :=
  congrArg UInt64.ofBitVec (pack_unpack_fields sign mantissa h)

theorem toBits_neg {x : Float} (h : exponent ≠ -1#11)
    (hx : x.toBits = .ofBitVec (fields sign exponent mantissa)) :
    (-x).toBits = .ofBitVec (fields (-sign) exponent mantissa) := by
  show UInt64.ofBitVec (UnpackedFloat.pack Format.binary64
    (UnpackedFloat.unpack Format.binary64 x.toBits.toBitVec).neg) = _
  rw [hx, neg_unpack_fields, pack_unpack_fields _ _ h]

theorem infinity_lt : infinity < 2 ^ 63 := by
  show 0x7FF * 2 ^ 52 < 2 ^ 63
  omega

variable (mantissa)

theorem magnitude_lt (h : exponent ≠ -1#11) :
    exponent.toNat * 2 ^ 52 + mantissa.toNat < infinity := by
  have last : exponent.toNat ≠ 2047 := fun h' => h (BitVec.eq_of_toNat_eq h')
  have bound := exponent.isLt
  have lower := mantissa.isLt
  show _ < 0x7FF * 2 ^ 52
  omega

theorem toBits_ofMagnitude (h : exponent ≠ -1#11) :
    (ofMagnitude (exponent.toNat * 2 ^ 52 + mantissa.toNat)).toBits =
      .ofBitVec (fields .positive exponent mantissa) := by
  have small := Nat.lt_trans (magnitude_lt mantissa h) infinity_lt
  have bits : UInt64.ofNat (exponent.toNat * 2 ^ 52 + mantissa.toNat) =
      .ofBitVec (fields .positive exponent mantissa) := by
    apply UInt64.toNat_inj.mp
    rw [UInt64.toNat_ofNat_of_lt' (Nat.lt_trans small (by decide)), UInt64.toNat_ofBitVec, toNat_fields]
    exact (congrArg (· + _) (Nat.zero_add _)).symm
  rw [ofMagnitude, bits, toBits_ofBits_fields h]

end

/-- The sign is the highest bit, and the magnitude is in the others. -/
theorem view_of_bits {x : Float} {negative : Bool} {magnitude : Nat} (hfinite : magnitude < infinity)
    (hbits : x.toBits.toNat = negative.toNat * 2 ^ 63 + magnitude) :
    view x = .finite negative magnitude := by
  have small := Nat.lt_trans hfinite infinity_lt
  have lower : x.toBits.toNat % Nat.pow 2 63 = magnitude := by
    rw [hbits, Nat.pow_eq]
    omega
  have upper : decide (Nat.pow 2 63 ≤ x.toBits.toNat) = negative := by
    rw [hbits, Nat.pow_eq]
    cases negative
    · exact decide_eq_false (by simpa using small)
    · exact decide_eq_true (by simp)
  unfold view
  dsimp only
  rw [lower, upper, if_neg (Nat.not_lt.mpr (Nat.le_of_lt hfinite)), if_neg (Nat.ne_of_lt hfinite)]

/-- The double with this magnitude and sign. -/
def signed (negative : Bool) (magnitude : Nat) : Float :=
  if negative then -ofMagnitude magnitude else ofMagnitude magnitude

/-- A finite double is the one that its magnitude and its sign spell. -/
theorem view_of_isFinite {x : Float} (h : x.isFinite = true) :
    ∃ negative magnitude, view x = .finite negative magnitude ∧ magnitude < infinity ∧
      signed negative magnitude = x := by
  obtain ⟨sign, exponent, mantissa, hexponent, hbits⟩ := exists_fields_of_isFinite h
  have finite := magnitude_lt mantissa hexponent
  have magnitude := toBits_ofMagnitude mantissa hexponent
  have bits : x.toBits.toNat = (fields sign exponent mantissa).toNat := congrArg UInt64.toNat hbits
  rw [toNat_fields, Nat.add_assoc] at bits
  cases sign with
  | positive =>
    exact ⟨false, _, view_of_bits finite bits, finite, eq_of_toBits_eq (magnitude.trans hbits.symm)⟩
  | negative =>
    have negated := toBits_neg hexponent magnitude
    exact ⟨true, _, view_of_bits finite bits, finite, eq_of_toBits_eq (negated.trans hbits.symm)⟩

end Lox.Number
