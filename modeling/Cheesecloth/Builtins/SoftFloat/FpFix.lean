import Cheesecloth.CodeLib.IntegerPart
import Cheesecloth.Builtins.SoftFloat.FpData

/-!
# The models of `fp_fixint_impl.inc` and `fp_fixuint_impl.inc`

The conversions of a floating-point number to an integer.  They are compiled for
each precision and for the integer types of 32, 64 and 128 bits (`IntType`).

* `fixuint_eq`: `__fixuint` truncates toward zero and saturates at both ends.
* `fixint_eq`: `__fixint` truncates toward zero.  It saturates only from
  `2 ^ bits` on, so that a number between `2 ^ (bits - 1)` and `2 ^ bits` wraps to
  the other sign.  In the range of the type it is exact (`fixint_toInt`).
-/

namespace Cheesecloth.Builtins.SoftFloat

open CodeLib CodeLib.Checked

variable {P : Precision}

/-! ## The routines -/

/-- `fixint_t` and `fixuint_t`: `si_int`, `di_int` and `ti_int`, and the unsigned
types of their sizes. -/
inductive IntType where
  | si
  | di
  | ti
  deriving DecidableEq, Repr

/-- `sizeof(fixint_t) * CHAR_BIT`. -/
def IntType.bits : IntType → Nat
  | si => 32
  | di => 64
  | ti => 128

/-- `int exponent = (aAbs >> significandBits) - exponentBias`. -/
def fixExponent (a : P.Rep) : Int :=
  ((a &&& P.absMask) >>> P.significandBits).toNat - P.exponentBias

/-- `(aAbs & significandMask) | implicitBit`. -/
def fixSignificand (a : P.Rep) : P.Rep :=
  (a &&& P.absMask) &&& P.significandMask ||| P.implicitBit

/-- The shift of the significand by the exponent, in the last branch of both
routines.  In `__fixint` the shift to the left and the product with the sign around
it are of signed integers, which C leaves undefined past the end of the type.  Both
wrap here; only the count of a shift is checked. -/
def fixShift (I : IntType) (significand : P.Rep) (exponent : Int) : Checked (BitVec I.bits) :=
  if exponent < P.significandBits then do
    return (← shr significand (P.significandBits - exponent)).setWidth I.bits
  else
    shl (significand.setWidth I.bits) (exponent - P.significandBits)

/-- `__fixuint`. -/
def fixuint (I : IntType) (a : P.Rep) : Checked (BitVec I.bits) :=
  let sign : Int := if a &&& P.signBit ≠ 0#P.typeWidth then -1 else 1
  let exponent := fixExponent a
  if sign = -1 ∨ exponent < 0 then return 0#I.bits
  -- `(unsigned)exponent`
  else if exponent % 2 ^ 32 ≥ I.bits then return ~~~0#I.bits
  else fixShift I (fixSignificand a) exponent

/-- `__fixint`. -/
def fixint (I : IntType) (a : P.Rep) : Checked (BitVec I.bits) :=
  let fixintMax : BitVec I.bits := ~~~0#I.bits / 2#I.bits
  let fixintMin : BitVec I.bits := -fixintMax - 1#I.bits
  let sign : Int := if a &&& P.signBit ≠ 0#P.typeWidth then -1 else 1
  let exponent := fixExponent a
  if exponent < 0 then return 0#I.bits
  -- `(unsigned)exponent`
  else if exponent % 2 ^ 32 ≥ I.bits then return if sign = 1 then fixintMax else fixintMin
  else do
    return BitVec.ofInt I.bits sign * (← fixShift I (fixSignificand a) exponent)

/-! ## What the conversions are for -/

/-- A datum as an unsigned integer of `w` bits: toward zero, and cut to the
range.  A NaN goes to the end that its sign bit points to. -/
def saturateUnsigned (w : Nat) (negative : Bool) : Datum → Nat
  | .nan => if negative then 0 else 2 ^ w - 1
  | .inf s => if s then 0 else 2 ^ w - 1
  | .finite _ x => min (truncate x).toNat (2 ^ w - 1)

/-- The end of the range of a signed integer of `w` bits. -/
def signedEnd (w : Nat) (negative : Bool) : Int :=
  if negative then -2 ^ (w - 1) else 2 ^ (w - 1) - 1

/-- A datum as a signed integer of `w` bits, as `__fixint` has it: the cut to the
range is at `2 ^ w`, and below that the integer part wraps. -/
def wrapSigned (w : Nat) (negative : Bool) : Datum → Int
  | .nan => signedEnd w negative
  | .inf s => signedEnd w s
  | .finite s x => if |x| < 2 ^ w then (truncate x).bmod (2 ^ w) else signedEnd w s

/-! ## The parts of the operand -/

section Parts

variable (a : P.Rep)

theorem IntType.bits_bounds (I : IntType) : 0 < I.bits ∧ I.bits ≤ 128 := by
  cases I <;> decide

theorem fixExponent_eq :
    fixExponent a =
      (a.toNat % P.format.signBit / 2 ^ P.significandBits : Nat) - P.exponentBias := by
  rw [fixExponent, Bits.toNat_shiftRight, abs_toNat]

theorem fixSignificand_toNat :
    (fixSignificand a).toNat =
      2 ^ P.significandBits + a.toNat % P.format.signBit % 2 ^ P.significandBits := by
  have hfield : ((a &&& P.absMask) &&& P.significandMask).toNat =
      a.toNat % P.format.signBit % 2 ^ P.significandBits := by
    rw [Bits.toNat_and_lowMask P.significandMask_toNat, abs_toNat]
  rw [fixSignificand, or_implicitBit_toNat_of_lt
    (by rw [hfield]; exact Nat.mod_lt _ (Nat.two_pow_pos _)), hfield]

theorem exponentBias_pos : 0 < P.exponentBias := by
  cases P <;> decide

theorem format_scale : P.format.scale = P.exponentBias + P.significandBits - 1 := by
  rw [Format.scale, P.format_bias]
  rfl

/-- The exponent of an infinity or a NaN is past every integer type, and no
exponent is past an `unsigned int`. -/
theorem maxExponent_ge (I : IntType) : P.exponentBias + I.bits ≤ P.maxExponent := by
  cases P <;> cases I <;> decide

theorem sign_ne_zero_iff : a &&& P.signBit ≠ 0#P.typeWidth ↔ isNegative a = true := by
  have hnonzero : P.signBit ≠ 0#P.typeWidth := by cases P <;> decide
  rw [and_signBit]
  cases isNegative a <;> simp [hnonzero]

end Parts

/-- The integer part, in the integer type. -/
theorem fixShift_ok {I : IntType} {a : P.Rep} {e : Nat}
    (he : a.toNat % P.format.signBit / 2 ^ P.significandBits = P.exponentBias + e)
    (hlt : e < I.bits) :
    ∃ r : BitVec I.bits, fixShift I (fixSignificand a) e = .ok r ∧
      r.toNat = magnitude P.significandBits (a.toNat % P.format.signBit) / 2 ^ P.format.scale := by
  have hsig := fixSignificand_toNat a
  have hbounds := magnitude_div_bounds exponentBias_pos he
  have hfit : 2 ^ (e + 1) ≤ 2 ^ I.bits := Nat.pow_le_pow_right (by decide) hlt
  have hwidth := P.typeWidth_eq
  rw [format_scale]
  unfold fixShift
  rcases Nat.lt_or_ge e P.significandBits with hsmall | hlarge
  · have hvalue := magnitude_div_of_lt exponentBias_pos he hsmall
    rw [if_pos (by exact_mod_cast hsmall), shr_ok _ (k := P.significandBits - e) (by omega)
      (by omega), ok_bind]
    refine ⟨_, rfl, ?_⟩
    rw [BitVec.toNat_setWidth, Bits.toNat_shiftRight, hsig, ← hvalue, Nat.mod_eq_of_lt (by omega)]
  · obtain ⟨k, hk⟩ := Nat.exists_eq_add_of_le hlarge
    have hvalue := magnitude_div_of_ge exponentBias_pos he hk
    have hsmallSig : (fixSignificand a).toNat < 2 ^ I.bits := by
      rw [hsig]
      refine Nat.lt_of_le_of_lt (Nat.le_mul_of_pos_right _ (Nat.two_pow_pos k)) ?_
      rw [← hvalue]
      omega
    have hword : ((fixSignificand a).setWidth I.bits).toNat = (fixSignificand a).toNat := by
      rw [BitVec.toNat_setWidth, Nat.mod_eq_of_lt hsmallSig]
    rw [if_neg (by omega), shl_ok _ (k := k) (by omega) (by omega)]
    refine ⟨_, rfl, ?_⟩
    rw [Bits.toNat_shiftLeft_of_lt (by rw [hword, hsig, ← hvalue]; omega), hword, hsig, hvalue]

/-! ## Unsigned -/

/-- The run of `__fixuint` on a word without its sign bit. -/
theorem fixuint_nonneg {I : IntType} {a : P.Rep} (hsign : isNegative a = false) :
    ∃ r : BitVec I.bits, fixuint I a = .ok r ∧
      r.toNat = if a.toNat % P.format.signBit / 2 ^ P.significandBits < P.exponentBias + I.bits
        then magnitude P.significandBits (a.toNat % P.format.signBit) / 2 ^ P.format.scale
        else 2 ^ I.bits - 1 := by
  have hbits := I.bits_bounds
  have hmax := P.maxExponent_bounds
  have hle := exponentField_le a
  rw [exponentField_toNat] at hle
  have hsign' : ¬ (a &&& P.signBit ≠ 0#P.typeWidth) := by simp [sign_ne_zero_iff, hsign]
  unfold fixuint
  simp only [if_neg hsign', fixExponent_eq]
  rcases Nat.lt_or_ge (a.toNat % P.format.signBit / 2 ^ P.significandBits) P.exponentBias
    with hneg | hge
  · refine ⟨0#I.bits, by rw [if_pos (by omega)]; rfl, ?_⟩
    rw [if_pos (by omega), format_scale, magnitude_div_eq_zero hneg, BitVec.toNat_zero]
  · obtain ⟨e, he⟩ := Nat.exists_eq_add_of_le hge
    rw [if_neg (by omega), he]
    rcases Nat.lt_or_ge e I.bits with hlt | hbig
    · obtain ⟨r, hr, hrNat⟩ := fixShift_ok he hlt
      refine ⟨r, ?_, by rw [if_pos (by omega), hrNat]⟩
      rw [if_neg (by omega), show ((P.exponentBias + e : Nat) : Int) - P.exponentBias = e by omega]
      exact hr
    · refine ⟨~~~0#I.bits, by rw [if_pos (by omega)]; rfl, ?_⟩
      rw [if_neg (by omega), BitVec.toNat_not, BitVec.toNat_zero, Nat.sub_zero]

theorem fixuint_negative {I : IntType} {a : P.Rep} (hsign : isNegative a = true) :
    fixuint I a = .ok 0#I.bits := by
  have hsign' := (sign_ne_zero_iff a).2 hsign
  unfold fixuint
  simp only [if_pos hsign']
  rfl

/-- The integer part of a finite word against the exponent. -/
theorem integerPart_lt_iff {a : P.Rep} (w : Nat) :
    magnitude P.significandBits (a.toNat % P.format.signBit) / 2 ^ P.format.scale < 2 ^ w ↔
      a.toNat % P.format.signBit / 2 ^ P.significandBits < P.exponentBias + w := by
  rw [format_scale]
  rcases Nat.lt_or_ge (a.toNat % P.format.signBit / 2 ^ P.significandBits) P.exponentBias
    with hneg | hge
  · rw [magnitude_div_eq_zero hneg]
    exact iff_of_true (Nat.two_pow_pos w) (by omega)
  · obtain ⟨e, he⟩ := Nat.exists_eq_add_of_le hge
    obtain ⟨hlow, hhigh⟩ := magnitude_div_bounds exponentBias_pos he
    rw [he, Nat.add_lt_add_iff_left]
    constructor
    · intro h
      exact (Nat.pow_lt_pow_iff_right (by decide)).1 (Nat.lt_of_le_of_lt hlow h)
    · intro h
      exact Nat.lt_of_lt_of_le hhigh (Nat.pow_le_pow_right (by decide) h)

theorem exponent_of_nonfinite {a : P.Rep}
    (h : P.format.infPattern ≤ a.toNat % P.format.signBit) (I : IntType) :
    ¬ a.toNat % P.format.signBit / 2 ^ P.significandBits < P.exponentBias + I.bits := by
  have hmax := maxExponent_ge (P := P) I
  have hle : P.maxExponent ≤ a.toNat % P.format.signBit / 2 ^ P.significandBits := by
    rwa [Nat.le_div_iff_mul_le (Nat.two_pow_pos _), ← P.format_infPattern]
  omega

/-- `__fixuint` truncates and saturates, on every bit pattern. -/
theorem fixuint_eq (I : IntType) (a : P.Rep) :
    fixuint I a = .ok (BitVec.ofNat I.bits
      (saturateUnsigned I.bits (isNegative a) (P.format.datum a.toNat))) := by
  have hpow := Nat.two_pow_pos I.bits
  cases hsign : isNegative a with
  | true =>
    have hspec : saturateUnsigned I.bits true (P.format.datum a.toNat) = 0 := by
      rcases Format.word_cases (toNat_lt a) with h | h | h
      · rw [Format.datum_nan h, saturateUnsigned, if_pos rfl]
      · rw [datum_eq_inf h, saturateUnsigned, if_pos hsign]
      · rw [datum_eq_finite h, saturateUnsigned, Format.truncate_value,
          if_pos (of_decide_eq_true hsign), Int.toNat_neg_natCast, Nat.zero_min]
    rw [fixuint_negative hsign, hspec]
  | false =>
    obtain ⟨r, hr, hrNat⟩ := fixuint_nonneg (I := I) hsign
    rw [hr]
    refine congrArg _ (BitVec.eq_of_toNat_eq ?_)
    have hspec : saturateUnsigned I.bits false (P.format.datum a.toNat) = r.toNat := by
      rcases Format.word_cases (toNat_lt a) with h | h | h
      · rw [Format.datum_nan h, saturateUnsigned, hrNat, if_neg (exponent_of_nonfinite h.le I)]
        rfl
      · rw [datum_eq_inf h, saturateUnsigned, hrNat, if_neg (exponent_of_nonfinite h.ge I), hsign]
        rfl
      · rw [datum_eq_finite h, saturateUnsigned, Format.truncate_value,
          if_neg (of_decide_eq_false hsign), Int.toNat_natCast, hrNat, P.format_significandBits]
        by_cases hlt : a.toNat % P.format.signBit / 2 ^ P.significandBits <
            P.exponentBias + I.bits
        · have := (integerPart_lt_iff I.bits).2 hlt
          rw [if_pos hlt, Nat.min_eq_left (by omega)]
        · have := mt (integerPart_lt_iff I.bits).1 hlt
          rw [if_neg hlt, Nat.min_eq_right (by omega)]
    rw [hspec, BitVec.ofNat_toNat, BitVec.setWidth_eq]

/-! ## Signed -/

/-- The ends of the range. -/
theorem fixintMax_eq (I : IntType) :
    ~~~0#I.bits / 2#I.bits = BitVec.ofInt I.bits (signedEnd I.bits false) := by
  cases I <;> rfl

theorem fixintMin_eq (I : IntType) :
    -BitVec.ofInt I.bits (signedEnd I.bits false) - 1#I.bits =
      BitVec.ofInt I.bits (signedEnd I.bits true) := by
  cases I <;> rfl

/-- The run of `__fixint`, by the exponent. -/
theorem fixint_run (I : IntType) (a : P.Rep) :
    fixint I a = .ok (BitVec.ofInt I.bits
      (if a.toNat % P.format.signBit / 2 ^ P.significandBits < P.exponentBias + I.bits
        then if isNegative a
          then -((magnitude P.significandBits (a.toNat % P.format.signBit) /
            2 ^ P.format.scale : Nat) : Int)
          else ((magnitude P.significandBits (a.toNat % P.format.signBit) /
            2 ^ P.format.scale : Nat) : Int)
        else signedEnd I.bits (isNegative a))) := by
  have hbits := I.bits_bounds
  have hmax := P.maxExponent_bounds
  have hle := exponentField_le a
  rw [exponentField_toNat] at hle
  unfold fixint
  simp only [sign_ne_zero_iff, fixExponent_eq, fixintMax_eq, fixintMin_eq]
  rcases Nat.lt_or_ge (a.toNat % P.format.signBit / 2 ^ P.significandBits) P.exponentBias
    with hneg | hge
  · rw [if_pos (by omega), if_pos (by omega), format_scale, magnitude_div_eq_zero hneg]
    simp
  · obtain ⟨e, he⟩ := Nat.exists_eq_add_of_le hge
    rw [if_neg (by omega), he]
    rcases Nat.lt_or_ge e I.bits with hlt | hbig
    · obtain ⟨r, hr, hrNat⟩ := fixShift_ok he hlt
      have hr' : r = BitVec.ofInt I.bits ((magnitude P.significandBits
          (a.toNat % P.format.signBit) / 2 ^ P.format.scale : Nat) : Int) := by
        rw [BitVec.ofInt_natCast, ← hrNat, BitVec.ofNat_toNat, BitVec.setWidth_eq]
      rw [if_pos (show P.exponentBias + e < P.exponentBias + I.bits by omega),
        show ((P.exponentBias + e : Nat) : Int) - P.exponentBias = e by omega,
        if_neg (show ¬ (e : Int) % 2 ^ 32 ≥ I.bits by omega), hr, ok_bind, hr',
        ← BitVec.ofInt_mul]
      cases isNegative a <;> simp
    · rw [if_neg (show ¬ P.exponentBias + e < P.exponentBias + I.bits by omega),
        if_pos (show (((P.exponentBias + e : Nat) : Int) - P.exponentBias) % 2 ^ 32 ≥ I.bits by
          omega)]
      cases isNegative a <;> rfl

/-- `__fixint` on every bit pattern. -/
theorem fixint_eq (I : IntType) (a : P.Rep) :
    fixint I a = .ok (BitVec.ofInt I.bits
      (wrapSigned I.bits (isNegative a) (P.format.datum a.toNat))) := by
  rw [fixint_run]
  rcases Format.word_cases (toNat_lt a) with h | h | h
  · rw [Format.datum_nan h, wrapSigned, if_neg (exponent_of_nonfinite h.le I)]
  · rw [datum_eq_inf h, wrapSigned, if_neg (exponent_of_nonfinite h.ge I)]
  · have hlt := Format.abs_value_lt_iff (f := P.format) (b := a.toNat) (2 ^ I.bits)
    rw [Nat.cast_pow, Nat.cast_ofNat, P.format_significandBits, integerPart_lt_iff] at hlt
    rw [datum_eq_finite h, wrapSigned, Format.truncate_value, P.format_significandBits]
    by_cases hsmall : a.toNat % P.format.signBit / 2 ^ P.significandBits < P.exponentBias + I.bits
    · rw [if_pos hsmall, if_pos (hlt.2 hsmall)]
      refine congrArg _ (BitVec.eq_of_toInt_eq ?_)
      rw [BitVec.toInt_ofInt, BitVec.toInt_ofInt, Int.bmod_bmod]
      simp only [isNegative, decide_eq_true_iff]
    · rw [if_neg hsmall, if_neg (mt hlt.1 hsmall)]

/-- In the range of the type `__fixint` is exact. -/
theorem fixint_toInt {I : IntType} {a : P.Rep} (ha : P.format.IsFinite a.toNat)
    (hlow : -2 ^ (I.bits - 1) ≤ truncate (P.format.value a.toNat))
    (hhigh : truncate (P.format.value a.toNat) < 2 ^ (I.bits - 1)) :
    ∃ r : BitVec I.bits, fixint I a = .ok r ∧ r.toInt = truncate (P.format.value a.toNat) := by
  have hbits := I.bits_bounds
  have hpow : 2 ^ I.bits = 2 * 2 ^ (I.bits - 1) := by
    rw [← Nat.pow_succ', Nat.succ_eq_add_one, Nat.sub_add_cancel hbits.1]
  have habs : |P.format.value a.toNat| < 2 ^ I.bits := by
    have h := Format.abs_value_lt_iff (f := P.format) (b := a.toNat) (2 ^ I.bits)
    rw [Nat.cast_pow, Nat.cast_ofNat] at h
    rw [h]
    rw [Format.truncate_value] at hlow hhigh
    generalize magnitude P.format.significandBits _ / 2 ^ P.format.scale = n at *
    zify at hpow ⊢
    split_ifs at hlow hhigh <;> omega
  refine ⟨_, fixint_eq I a, ?_⟩
  rw [datum_eq_finite ha, wrapSigned, if_pos habs, BitVec.toInt_ofInt, Int.bmod_bmod,
    Int.bmod_eq_of_le]
  · zify at hpow
    push_cast
    omega
  · zify at hpow
    push_cast
    omega

/-- `-42.5`, as a 32-bit integer. -/
theorem fixint_toInt_negative :
    Precision.double.format.IsFinite (0xC045400000000000#64).toNat ∧
      ∃ r : BitVec 32, fixint (P := .double) .si 0xC045400000000000#64 = .ok r ∧
        r.toInt = truncate (Precision.double.format.value (0xC045400000000000#64).toNat) := by
  have hfinite : Precision.double.format.IsFinite (0xC045400000000000#64).toNat :=
    ⟨by decide +kernel, by decide +kernel⟩
  refine ⟨hfinite, fixint_toInt (I := .si) (P := .double) hfinite ?_ ?_⟩
  · rw [Format.truncate_value]
    decide +kernel
  · rw [Format.truncate_value]
    decide +kernel

end Cheesecloth.Builtins.SoftFloat
