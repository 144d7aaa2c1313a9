import Cheesecloth.Builtins.FloatConv.Double
import Cheesecloth.Builtins.SoftFloat.Arithmetic
import Cheesecloth.Builtins.SoftFloat.FpCompare
import Cheesecloth.Builtins.SoftFloat.FpFix
import Cheesecloth.Builtins.SoftFloat.FpTrunc

/-!
# The 64-bit conversions of doubles and floats to integers

`fixunsdfdi.c`, `fixdfdi.c`, `fixunssfdi.c` and `fixsfdi.c`.  An x86_64 triple
selects the bodies for hardware floating point.  They cut the argument into two
halves with a division, a product and a difference of doubles.  As in
`FloatConv`, every double operation is the soft-float routine of this library.

* `fixunsdfdi_eq_soft` and `fixunssfdi_eq_soft`: the unsigned conversions agree
  with `__fixuint` on every bit pattern, NaNs included.
* `fixdfdi_eq_soft_iff`: the signed conversion agrees with `__fixint` exactly
  below `2 ^ 64`.
* `fixdfdi_floatdidf`: it undoes `__floatdidf` on the integers that a double
  holds.
-/

namespace Cheesecloth.Builtins.FixConv

open CodeLib CodeLib.Checked SoftFloat FloatConv

/-! ## The routines -/

/-- `__floatunsidf`: the body of `__floatsidf` without the sign. -/
def floatunsidf (a : BitVec 32) : Checked (BitVec 64) :=
  if a = 0#32 then return 0#64 else floatsidfAbs 0#64 a

/-- `__negdf2` and `__negsf2`. -/
def negXf2 {P : Precision} (a : P.Rep) : P.Rep := a ^^^ P.signBit

/-- `__fixunsdfsi`. -/
def fixunsdfsi (a : BitVec 64) : Checked (BitVec 32) := fixuint (P := .double) .si a

/-- The halves of `__fixunsdfdi` without `__SOFTFP__`, past the test for
`a <= 0.0`. -/
def fixunsdfdiHalves (a : BitVec 64) : Checked (BitVec 64) := do
  let high ← fixunsdfsi (← divdf3 a twop32)
  let low ← fixunsdfsi (← subdf3 a (← muldf3 (← floatunsidf high) twop32))
  return high.setWidth 64 <<< 32 ||| low.setWidth 64

/-- `__fixunsdfdi` without `__SOFTFP__`. -/
def fixunsdfdi (a : BitVec 64) : Checked (BitVec 64) :=
  if leXf2 (P := .double) a 0#64 ≤ 0 then return 0#64 else fixunsdfdiHalves a

/-- `__fixunsdfdi` with `__SOFTFP__`. -/
def fixunsdfdiSoft (a : BitVec 64) : Checked (BitVec 64) := fixuint (P := .double) .di a

/-- The body of `__fixdfdi` and `__fixsfdi` without `__SOFTFP__`.  The negation of
the result wraps. -/
def fixSigned {P : Precision} (fixunsigned : P.Rep → Checked (BitVec 64)) (a : P.Rep) :
    Checked (BitVec 64) :=
  if leXf2 a 0#P.typeWidth < 0 then do
    return -(← fixunsigned (negXf2 a))
  else
    fixunsigned a

/-- `__fixdfdi` without `__SOFTFP__`. -/
def fixdfdi (a : BitVec 64) : Checked (BitVec 64) := fixSigned (P := .double) fixunsdfdi a

/-- `__fixdfdi` with `__SOFTFP__`. -/
def fixdfdiSoft (a : BitVec 64) : Checked (BitVec 64) := fixint (P := .double) .di a

/-- `__fixunssfdi` without `__SOFTFP__`. -/
def fixunssfdi (a : BitVec 32) : Checked (BitVec 64) :=
  if leXf2 (P := .single) a 0#32 ≤ 0 then return 0#64
  else do fixunsdfdiHalves (← extendsfdf2 a)

/-- `__fixunssfdi` with `__SOFTFP__`. -/
def fixunssfdiSoft (a : BitVec 32) : Checked (BitVec 64) := fixuint (P := .single) .di a

/-- `__fixsfdi` without `__SOFTFP__`. -/
def fixsfdi (a : BitVec 32) : Checked (BitVec 64) := fixSigned (P := .single) fixunssfdi a

/-- `__fixsfdi` with `__SOFTFP__`. -/
def fixsfdiSoft (a : BitVec 32) : Checked (BitVec 64) := fixint (P := .single) .di a

/-! ## Numbers of units -/

section Halves

variable {P : Precision} {a b : P.Rep} {U : Nat}

/-- A number of units, cut to an unsigned integer. -/
theorem saturate_units (ha : P.format.IsFinite a.toNat) (w : Nat)
    (hunits : P.format.units a.toNat = U) :
    saturateUnsigned w (isNegative a) (P.format.datum a.toNat) =
      min (U / 2 ^ P.format.scale) (2 ^ w - 1) := by
  have htruncate := truncate_natCast_div U (2 ^ P.format.scale)
  rw [Nat.cast_pow, Nat.cast_ofNat] at htruncate
  rw [datum_eq_finite ha, saturateUnsigned, Format.value, hunits, Int.cast_natCast, htruncate,
    Int.toNat_natCast]

theorem saturateUnsigned_lt (w : Nat) (negative : Bool) (d : Datum) :
    saturateUnsigned w negative d < 2 ^ w := by
  have hpow := Nat.two_pow_pos w
  cases d <;> simp only [saturateUnsigned] <;> (try split_ifs) <;> omega

/-- A finite word has a significand of `p + 1` bits. -/
theorem units_parts (ha : P.format.IsFinite a.toNat) (hunits : P.format.units a.toNat = U) :
    (∃ s k, U = s * 2 ^ k ∧ s < 2 ^ (P.format.significandBits + 1)) ∧
      U < 2 ^ (P.format.significandBits + 2 * P.format.bias) := by
  have hmag : magnitude P.format.significandBits (a.toNat % P.format.signBit) = U := by
    rw [← Format.natAbs_units, hunits, Int.natAbs_natCast]
  constructor
  · obtain ⟨k, s, hparts, hk, hs⟩ := exists_parts P.format.significandBits
      (a.toNat % P.format.signBit)
    refine ⟨s, k, ?_, hs⟩
    rw [← hmag, hparts, magnitude_parts hk (Nat.le_of_lt hs)]
  · rw [← hmag, ← Format.magnitude_infPattern]
    exact magnitude_strictMono _ ha.2

theorem value_of_isInteger {v : Int} (hb : IsInteger b v) : P.format.value b.toNat = v := by
  have hpos : (2 : ℚ) ^ P.format.scale ≠ 0 := by positivity
  rw [Format.value, hb.units, Int.cast_mul, Int.cast_pow, Int.cast_ofNat,
    mul_div_cancel_right₀ _ hpos]

theorem value_of_units (hunits : P.format.units a.toNat = U) :
    P.format.value a.toNat = (U : ℚ) / 2 ^ P.format.scale := by
  rw [Format.value, hunits, Int.cast_natCast]

/-- Nothing below a finite number overflows. -/
theorem abs_lt_overflowThreshold_of_le {V : Nat} (ha : P.format.IsFinite a.toNat)
    (hunits : P.format.units a.toNat = U) (hle : V ≤ U) :
    |((V : Int) : ℚ) / 2 ^ P.format.scale| < P.format.overflowThreshold := by
  refine lt_of_le_of_lt ?_ (Format.abs_value_lt_overflowThreshold ha)
  rw [value_of_units hunits, Int.cast_natCast, abs_of_nonneg (by positivity),
    abs_of_nonneg (by positivity)]
  gcongr

/-! ## The upper half -/

theorem isFinite_zero {f : Format} : f.IsFinite 0 := by
  rw [Format.IsFinite, Nat.zero_mod]
  exact ⟨Nat.mul_pos (by decide) (Nat.two_pow_pos _), Format.infPattern_pos⟩

theorem value_zero {f : Format} : f.value 0 = 0 := by
  rw [Format.value_eq_zero_iff, Format.units_eq_zero_iff, Nat.zero_mod]

/-- A number below one half is rounded to one below one. -/
theorem truncate_of_roundsTo_lt {f : Format} {x : ℚ} {n : Nat} (h : f.RoundsTo x n) (hx : 0 ≤ x)
    (hlt : 2 * x < 1) (hover : |x| < f.overflowThreshold) : truncate (f.value n) = 0 := by
  -- Zero competes with the nearest value.
  have hnear := h.nearest hover 0 isFinite_zero
  have hge := h.le_value hover isFinite_zero (value_zero.symm ▸ hx)
  rw [value_zero] at hnear hge
  rw [sub_zero, abs_of_nonneg hx, abs_le] at hnear
  rw [truncate, if_neg (not_lt.2 hge), Int.floor_eq_zero_iff]
  exact ⟨hge, by linarith⟩

/-- A significand whose last place is below `2 ^ 32` units is far below one after
the division. -/
theorem two_mul_units_lt {s k : Nat} (hs : s < 2 ^ (P.format.significandBits + 1)) (hk : k < 32) :
    2 * (s * 2 ^ k) < 2 ^ (P.format.scale + 32) := by
  have hpow : 2 ^ k ≤ 2 ^ 31 := Nat.pow_le_pow_right (by decide) (by omega)
  have hmul := Nat.mul_lt_mul_of_lt_of_le hs hpow (by decide)
  have hle : P.format.significandBits + 1 ≤ P.format.scale := by cases P <;> decide
  have hscale : 2 ^ (P.format.significandBits + 1) ≤ 2 ^ P.format.scale :=
    Nat.pow_le_pow_right (by decide) hle
  rw [Nat.pow_add _ P.format.scale]
  omega

/-- The quotient by `2 ^ 32`, converted. -/
theorem quotient_saturates (ha : P.format.IsFinite a.toNat) (hpos : 0 < U)
    (hunits : P.format.units a.toNat = U) (hb : IsInteger b (2 ^ 32)) :
    ∃ q : P.Rep, divXf3 a b = .ok q ∧
      saturateUnsigned 32 (isNegative q) (P.format.datum q.toNat) =
        min (U / 2 ^ (P.format.scale + 32)) (2 ^ 32 - 1) := by
  obtain ⟨⟨s, k, hsk, hs⟩, hbound⟩ := units_parts ha hunits
  have hvalue := value_of_units hunits
  have hbnz : P.format.units b.toNat ≠ 0 := by
    rw [hb.units]
    positivity
  obtain ⟨q, hq, hrounds⟩ := divXf3_roundsTo ha hb.finite (by omega) hbnz
  refine ⟨q, hq, ?_⟩
  rw [value_of_isInteger hb, Int.cast_pow, Int.cast_ofNat] at hrounds
  rcases Nat.lt_or_ge k 32 with hk | hk
  · have hsmall := hsk ▸ two_mul_units_lt (P := P) hs hk
    have hquotient : P.format.value a.toNat / 2 ^ 32 = (U : ℚ) / 2 ^ (P.format.scale + 32) := by
      rw [hvalue, div_div, ← pow_add]
    have hhalf : 2 * ((U : ℚ) / 2 ^ (P.format.scale + 32)) < 1 := by
      rw [← mul_div_assoc, div_lt_one (by positivity)]
      exact_mod_cast hsmall
    have hover : |(U : ℚ) / 2 ^ (P.format.scale + 32)| < P.format.overflowThreshold := by
      refine lt_of_le_of_lt ?_ (Format.abs_value_lt_overflowThreshold ha)
      rw [← hquotient, abs_div, abs_of_pos (show (0 : ℚ) < 2 ^ 32 by positivity)]
      exact div_le_self (abs_nonneg _) (by norm_num)
    rw [hquotient] at hrounds
    rw [datum_eq_finite (hrounds.finite hover), saturateUnsigned,
      truncate_of_roundsTo_lt hrounds (by positivity) hhalf hover, Nat.div_eq_of_lt (by omega)]
    rfl
  · -- The division only lowers the exponent.
    have hX : U = s * 2 ^ (k - 32) * 2 ^ 32 := by
      rw [hsk, Nat.mul_assoc, ← Nat.pow_add, Nat.sub_add_cancel hk]
    have hquotient : P.format.value a.toNat / 2 ^ 32 =
        (((s * 2 ^ (k - 32) : Nat) : Int) : ℚ) / 2 ^ P.format.scale := by
      rw [hvalue, hX, Nat.cast_mul, Int.cast_natCast, Nat.cast_pow, Nat.cast_ofNat,
        div_right_comm, mul_div_cancel_right₀ _ (by positivity)]
    rw [hquotient] at hrounds
    have hlt : s * 2 ^ (k - 32) < 2 ^ (P.format.significandBits + 2 * P.format.bias) :=
      Nat.lt_of_le_of_lt (by rw [hX]; exact Nat.le_mul_of_pos_right _ (by decide)) hbound
    obtain ⟨hfinite, hexact⟩ := hrounds.exact (Int.natAbs_natCast _) hs hlt
    rw [saturate_units hfinite 32 hexact, hX, Nat.pow_add, Nat.mul_div_mul_right _ _ (by decide)]

/-! ## The lower half -/

/-- What the upper half leaves of a number below `2 ^ 64` fits the significand. -/
theorem remainder_parts {s k m : Nat} (hs : s < m) (n : Nat) :
    ∃ c j, s * 2 ^ k % 2 ^ n = c * 2 ^ j ∧ c < m := by
  rcases Nat.le_total k n with hle | hle
  · refine ⟨s % 2 ^ (n - k), k, ?_, Nat.lt_of_le_of_lt (Nat.mod_le _ _) hs⟩
    rw [← Nat.mul_mod_mul_right, ← Nat.pow_add, Nat.sub_add_cancel hle]
  · refine ⟨0, 0, ?_, Nat.lt_of_le_of_lt (Nat.zero_le _) hs⟩
    rw [← Nat.sub_add_cancel hle, Nat.pow_add, ← Nat.mul_assoc, Nat.mul_mod_left, Nat.zero_mul]

/-- The difference of a number and an integer below it, in units. -/
theorem difference_roundsTo {t : P.Rep} {v : Nat} (ha : P.format.IsFinite a.toNat) (hpos : 0 < U)
    (hunits : P.format.units a.toNat = U) (ht : IsInteger t (v : Int))
    (hle : v * 2 ^ P.format.scale ≤ U) :
    ∃ r : P.Rep, subXf3 a t = .ok r ∧ P.format.RoundsTo
      ((((U - v * 2 ^ P.format.scale : Nat) : Int) : ℚ) / 2 ^ P.format.scale) r.toNat := by
  have hfinite : P.format.IsFinite (t ^^^ P.signBit).toNat :=
    ⟨toNat_lt _, (xor_signBit_pattern t).symm ▸ ht.finite.2⟩
  have hvalue : P.format.value (t ^^^ P.signBit).toNat = -(v : ℚ) := by
    have hneg := datum_xor_signBit t
    rw [datum_eq_finite hfinite, datum_eq_finite ht.finite, Datum.neg, Datum.finite.injEq] at hneg
    rw [hneg.2, value_of_isInteger ht, Int.cast_natCast]
  have hanz : a ≠ P.signBit := by
    rintro rfl
    rw [units_of_zero (by rw [P.signBit_toNat, P.format_signBit, Nat.mod_self])] at hunits
    omega
  obtain ⟨r, hr, hrounds⟩ := addXf3_roundsTo ha hfinite fun h => hanz h.1
  refine ⟨r, hr, ?_⟩
  have hdifference : (U : ℚ) / 2 ^ P.format.scale + -(v : ℚ) =
      (((U - v * 2 ^ P.format.scale : Nat) : Int) : ℚ) / 2 ^ P.format.scale := by
    rw [Int.cast_natCast, Nat.cast_sub hle, sub_div, Nat.cast_mul, Nat.cast_pow, Nat.cast_ofNat,
      mul_div_cancel_right₀ _ (by positivity), sub_eq_add_neg]
  rwa [hvalue, value_of_units hunits, hdifference] at hrounds

/-- A number past the range is rounded to one past the range. -/
theorem saturate_past {x : ℚ} (hrounds : P.format.RoundsTo x a.toNat)
    (hover : |x| < P.format.overflowThreshold) (hb : IsInteger b (2 ^ 32)) (hle : 2 ^ 32 ≤ x) :
    saturateUnsigned 32 (isNegative a) (P.format.datum a.toNat) = 2 ^ 32 - 1 := by
  have hvalue : P.format.value b.toNat = 2 ^ 32 := by
    rw [value_of_isInteger hb, Int.cast_pow, Int.cast_ofNat]
  have hge := hrounds.le_value hover hb.finite (hvalue.symm ▸ hle)
  rw [hvalue] at hge
  have htruncate : 2 ^ 32 ≤ truncate (P.format.value a.toNat) := by
    have hnonneg : (0 : ℚ) ≤ P.format.value a.toNat := le_trans (by positivity) hge
    rw [truncate, if_neg (not_lt.2 hnonneg), Int.le_floor, Int.cast_pow, Int.cast_ofNat]
    exact hge
  rw [datum_eq_finite (hrounds.finite hover), saturateUnsigned, Nat.min_eq_right (by omega)]

/-- The number without its upper half, converted. -/
theorem remainder_saturates {h : Nat} {t : P.Rep} (ha : P.format.IsFinite a.toNat) (hpos : 0 < U)
    (hunits : P.format.units a.toNat = U) (hb : IsInteger b (2 ^ 32))
    (hh : h = min (U / 2 ^ (P.format.scale + 32)) (2 ^ 32 - 1))
    (ht : IsInteger t ((h * 2 ^ 32 : Nat) : Int)) :
    ∃ r : P.Rep, subXf3 a t = .ok r ∧
      saturateUnsigned 32 (isNegative r) (P.format.datum r.toNat) =
        min ((U - h * 2 ^ 32 * 2 ^ P.format.scale) / 2 ^ P.format.scale) (2 ^ 32 - 1) := by
  obtain ⟨⟨s, k, hsk, hs⟩, hbound⟩ := units_parts ha hunits
  have hpow : h * 2 ^ 32 * 2 ^ P.format.scale = h * 2 ^ (P.format.scale + 32) := by
    rw [Nat.mul_assoc, ← Nat.pow_add, Nat.add_comm]
  have hle : h * 2 ^ 32 * 2 ^ P.format.scale ≤ U := by
    rw [hpow, hh]
    exact (Nat.mul_le_mul_right _ (Nat.min_le_left _ _)).trans (Nat.div_mul_le_self _ _)
  obtain ⟨r, hr, hrounds⟩ := difference_roundsTo ha hpos hunits ht hle
  refine ⟨r, hr, ?_⟩
  rcases Nat.lt_or_ge (U / 2 ^ (P.format.scale + 32)) (2 ^ 32) with hsmall | hlarge
  · -- The difference is the remainder, and it is exact.
    have hmod : U - h * 2 ^ 32 * 2 ^ P.format.scale = U % 2 ^ (P.format.scale + 32) := by
      rw [hpow, hh, Nat.min_eq_left (by omega), Nat.mul_comm, Nat.mod_eq_sub]
    obtain ⟨c, j, hcj, hc⟩ := remainder_parts hs (k := k) (P.format.scale + 32)
    rw [← hsk, ← hmod] at hcj
    obtain ⟨hfinite, hexact⟩ := hrounds.exact ((Int.natAbs_natCast _).trans hcj) hc
      (by rw [Int.natAbs_natCast]; exact Nat.lt_of_le_of_lt (Nat.sub_le _ _) hbound)
    exact saturate_units hfinite 32 hexact
  · -- The difference is past the range.
    have hpast : 2 ^ 32 * 2 ^ P.format.scale ≤ U - h * 2 ^ 32 * 2 ^ P.format.scale := by
      have hmul := Nat.mul_le_of_le_div _ _ _ hlarge
      rw [hh, Nat.min_eq_right (by omega)]
      rw [Nat.pow_add _ P.format.scale] at hmul
      omega
    generalize hV : U - h * 2 ^ 32 * 2 ^ P.format.scale = V at *
    have hover := abs_lt_overflowThreshold_of_le ha hunits (hV ▸ Nat.sub_le _ _ : V ≤ U)
    have hge : (2 : ℚ) ^ 32 ≤ ((V : Int) : ℚ) / 2 ^ P.format.scale := by
      rw [le_div_iff₀ (pow_pos two_pos _), Int.cast_natCast]
      exact_mod_cast hpast
    rw [saturate_past hrounds hover hb hge, Nat.min_eq_right]
    exact Nat.sub_le_of_le_add (Nat.le_succ_of_le
      ((Nat.le_div_iff_mul_le (Nat.two_pow_pos _)).2 hpast))

/-! ## NaNs and infinities -/

/-- The quiet bit is not the sign bit. -/
theorem or_quietBit_isNegative (a : P.Rep) : isNegative (a ||| P.quietBit) = isNegative a := by
  have hquiet : P.quietBit.toNat.testBit (P.significandBits + P.exponentBits) = false := by
    cases P <;> rfl
  rw [← testBit_sign, BitVec.toNat_or, Nat.testBit_or, hquiet, Bool.or_false, testBit_sign]

/-- A NaN passes through a division and a difference with its sign. -/
theorem nan_passes (ha : P.format.infPattern < a.toNat % P.format.signBit) (b : P.Rep) :
    divXf3 a b = .ok (a ||| P.quietBit) ∧ subXf3 a b = .ok (a ||| P.quietBit) := by
  have hnan : a &&& P.absMask > P.infRep := abs_gt_infRep_iff.2 ha
  have hspecial : hasSpecialExponent a b :=
    hasSpecialExponent_of_nonfinite fun h => absurd h.1.2 (by omega)
  have hguard := addSpecialOperands_guard (a := a) (b := b ^^^ P.signBit) (Or.inl ha.le)
  constructor
  · unfold divXf3 divSpecialOperands
    simp only [if_pos hspecial, if_pos hnan]
    rfl
  · unfold subXf3 addXf3 addSpecialOperands
    simp only [if_pos hguard, if_pos hnan]
    rfl

/-- So does an infinity, past a positive divisor and a number. -/
theorem inf_passes (ha : a.toNat % P.format.signBit = P.format.infPattern)
    (hsign : isNegative a = false) (hb : P.format.IsFinite b.toNat) :
    (isNegative b = false → divXf3 a b = .ok a) ∧ subXf3 a b = .ok a := by
  have hword : ∀ {r : P.Rep}, P.format.Delivers (.inf false) r.toNat → r = a := by
    intro r hr
    exact BitVec.eq_of_toNat_eq (hr.unique (hsign ▸ delivers_self ha) (by simp))
  have hfinite : ∀ {c : P.Rep}, ¬ (P.format.IsFinite a.toNat ∧ P.format.IsFinite c.toNat) :=
    fun h => absurd h.1.2 (by omega)
  constructor
  · intro hsignB
    obtain ⟨r, hr, hdelivers⟩ := divSpecialOperands_delivers (Or.inl (hfinite (c := b)))
    rw [datum_eq_inf ha, datum_eq_finite hb, Datum.div, hsign, hsignB] at hdelivers
    rw [divXf3, hr, hword hdelivers]
    rfl
  · obtain ⟨r, hr, hdelivers⟩ := addSpecialOperands_delivers (hfinite (c := b ^^^ P.signBit))
    have hfiniteB : P.format.IsFinite (b ^^^ P.signBit).toNat :=
      ⟨toNat_lt _, (xor_signBit_pattern b).symm ▸ hb.2⟩
    rw [datum_eq_inf ha, datum_eq_finite hfiniteB, Datum.add, hsign] at hdelivers
    rw [subXf3, addXf3, hr, hword hdelivers]
    rfl

end Halves

/-! ## The two halves together -/

/-- `__floatunsidf` is exact. -/
theorem floatunsidf_ok (a : BitVec 32) :
    ∃ r : BitVec 64, floatunsidf a = .ok r ∧ IsInteger (P := .double) r (a.toNat : Int) := by
  unfold floatunsidf
  split_ifs with hzero
  · refine ⟨0#64, rfl, ?_⟩
    rw [hzero]
    exact ⟨⟨by decide, by decide⟩, by decide, by simp [Format.units]⟩
  · exact floatsidfAbs_ok false (Nat.pos_of_ne_zero fun h => hzero (BitVec.eq_of_toNat_eq h))

/-- The upper half goes back to a double exactly. -/
theorem high_isInteger {h : Nat} (hlt : h < 2 ^ 32) :
    ∃ x t : BitVec 64, floatunsidf (BitVec.ofNat 32 h) = .ok x ∧ muldf3 x twop32 = .ok t ∧
      IsInteger (P := .double) t ((h * 2 ^ 32 : Nat) : Int) := by
  obtain ⟨x, hx, hxInt⟩ := floatunsidf_ok (BitVec.ofNat 32 h)
  rw [BitVec.toNat_ofNat, Nat.mod_eq_of_lt hlt] at hxInt
  obtain ⟨t, ht, htNat⟩ := muldf3_integer hxInt twop32_isInteger (by decide)
  have hcast : (h : Int) * 2 ^ 32 = ((h * 2 ^ 32 : Nat) : Int) := by push_cast; rfl
  rw [hcast] at htNat
  have hbias : 2 ^ 64 ≤ 2 ^ Precision.double.format.bias :=
    Nat.pow_le_pow_right (by decide) (by decide)
  refine ⟨x, t, hx, ht, IsInteger.of_exact (P := .double) htNat (Int.natAbs_natCast _)
    (show h < 2 ^ 53 by omega) (Nat.lt_of_lt_of_le ?_ hbias)⟩
  rw [Int.natAbs_natCast]
  omega

theorem join_halves {h l : Nat} (hh : h < 2 ^ 32) (hl : l < 2 ^ 32) :
    (BitVec.ofNat 32 h).setWidth 64 <<< 32 ||| (BitVec.ofNat 32 l).setWidth 64 =
      BitVec.ofNat 64 (h * 2 ^ 32 + l) := by
  apply BitVec.eq_of_toNat_eq
  have hor := Nat.two_pow_add_eq_or_of_lt hl h
  rw [BitVec.toNat_or, BitVec.toNat_shiftLeft, BitVec.toNat_setWidth, BitVec.toNat_setWidth,
    BitVec.toNat_ofNat, BitVec.toNat_ofNat, BitVec.toNat_ofNat, Nat.mod_eq_of_lt hh,
    Nat.mod_eq_of_lt hl, Nat.mod_eq_of_lt (show h < 2 ^ 64 by omega),
    Nat.mod_eq_of_lt (show l < 2 ^ 64 by omega), Nat.shiftLeft_eq,
    Nat.mod_eq_of_lt (show h * 2 ^ 32 < 2 ^ 64 by omega), Nat.mul_comm h, ← hor,
    Nat.mod_eq_of_lt (by omega)]

/-- The run of the two halves, from what each is converted to. -/
theorem fixunsdfdiHalves_run {a q : Precision.double.Rep} {h l : Nat}
    (hq : divdf3 a twop32 = .ok q)
    (hhigh : saturateUnsigned 32 (isNegative q) (Precision.double.format.datum q.toNat) = h)
    (hlow : ∀ t : Precision.double.Rep, IsInteger t ((h * 2 ^ 32 : Nat) : Int) →
      ∃ r : Precision.double.Rep, subXf3 a t = .ok r ∧
        saturateUnsigned 32 (isNegative r) (Precision.double.format.datum r.toNat) = l) :
    fixunsdfdiHalves a = .ok (BitVec.ofNat 64 (h * 2 ^ 32 + l)) := by
  have hlt : h < 2 ^ 32 := hhigh ▸ saturateUnsigned_lt _ _ _
  obtain ⟨x, t, hx, ht, htInt⟩ := high_isInteger hlt
  obtain ⟨r, hr, hlowEq⟩ := hlow t htInt
  have hllt : l < 2 ^ 32 := hlowEq ▸ saturateUnsigned_lt _ _ _
  have hqFix : fixunsdfsi q = .ok (BitVec.ofNat 32 h) := hhigh ▸ fixuint_eq .si q
  have hrFix : fixunsdfsi r = .ok (BitVec.ofNat 32 l) := hlowEq ▸ fixuint_eq .si r
  have hdivision : (divdf3 a twop32 >>= fixunsdfsi) = .ok (BitVec.ofNat 32 h) := by
    rw [hq]
    exact hqFix
  have hdifference : (subdf3 a t >>= fixunsdfsi) = .ok (BitVec.ofNat 32 l) := by
    rw [show subdf3 a t = .ok r from hr]
    exact hrFix
  rw [← join_halves hlt hllt]
  unfold fixunsdfdiHalves
  rw [← bind_assoc, hdivision, ok_bind, hx, ok_bind, ht, ok_bind, ← bind_assoc, hdifference]
  rfl

/-- A datum that the test for `a <= 0.0` lets through. -/
def NotLeZero : Datum → Prop
  | .nan => True
  | .inf s => s = false
  | .finite _ x => 0 < x

/-- The two halves make up the conversion of 64 bits. -/
theorem fixunsdfdiHalves_eq {a : Precision.double.Rep}
    (ha : NotLeZero (Precision.double.format.datum a.toNat)) :
    fixunsdfdiHalves a = .ok (BitVec.ofNat 64
      (saturateUnsigned 64 (isNegative a) (Precision.double.format.datum a.toNat))) := by
  rcases Format.word_cases (toNat_lt a) with h | h | h
  · have hquiet := (delivers_quiet h).datum_nan
    have hrun := fixunsdfdiHalves_run (nan_passes h _).1 rfl fun t _ => ⟨_, (nan_passes h t).2, rfl⟩
    rw [hquiet, or_quietBit_isNegative] at hrun
    rw [hrun, Format.datum_nan h]
    cases isNegative a <;> rfl
  · rw [datum_eq_inf h, NotLeZero] at ha
    have hdatum := datum_eq_inf h
    rw [ha] at hdatum
    have hrun := fixunsdfdiHalves_run ((inf_passes h ha twop32_isInteger.finite).1 (by decide)) rfl
      fun t ht => ⟨a, (inf_passes h ha ht.finite).2, rfl⟩
    rw [hrun, hdatum]
    simp [saturateUnsigned]
  · rw [datum_eq_finite h, NotLeZero, Format.value, div_pos_iff_of_pos_right (by positivity),
      Int.cast_pos] at ha
    obtain ⟨U, hunits⟩ := Int.eq_ofNat_of_zero_le ha.le
    have hpos : 0 < U := by omega
    obtain ⟨q, hq, hhigh⟩ := quotient_saturates h hpos hunits twop32_isInteger
    rw [fixunsdfdiHalves_run hq hhigh fun t ht =>
      remainder_saturates h hpos hunits twop32_isInteger rfl ht, saturate_units h 64 hunits]
    rw [Nat.mul_comm _ (2 ^ Precision.double.format.scale), Nat.sub_mul_div, Nat.pow_add,
      ← Nat.div_div_eq_div_mul]
    generalize U / 2 ^ Precision.double.format.scale = n
    refine congrArg (fun m => Except.ok (BitVec.ofNat 64 m)) ?_
    omega

/-! ## The tests against zero -/

section Tests

variable {P : Precision} (a : P.Rep)

theorem datum_zero : P.format.datum (0#P.typeWidth).toNat = .finite false 0 := by
  have hsign : isNegative (0#P.typeWidth) = false := by cases P <;> decide
  have hzero : (0#P.typeWidth).toNat = 0 := BitVec.toNat_zero
  rw [datum_eq_finite (hzero.symm ▸ isFinite_zero), hsign, hzero, value_zero]

/-- The order of a datum against zero. -/
theorem leXf2_zero :
    leXf2 a 0#P.typeWidth = match P.format.datum a.toNat with
      | .nan => 1
      | .inf s => if s then -1 else 1
      | .finite _ x => if x < 0 then -1 else if x = 0 then 0 else 1 := by
  rw [leXf2, compareXf2_eq, datum_zero]
  rcases P.format.datum a.toNat with _ | s | ⟨s, x⟩
  · rfl
  · cases s
    · refine (compareResult_cmp 1 _ _).trans ?_
      simp only [WithBot.coe_lt_coe, not_top_lt, WithBot.coe_inj, WithTop.top_ne_coe, if_false,
        Bool.false_eq_true]
    · exact (compareResult_cmp 1 _ _).trans (if_pos (WithBot.bot_lt_coe _))
  · refine (compareResult_cmp 1 _ _).trans ?_
    simp only [WithBot.coe_lt_coe, WithTop.coe_lt_coe, WithBot.coe_inj, WithTop.coe_inj]

theorem leXf2_zero_le_iff :
    leXf2 a 0#P.typeWidth ≤ 0 ↔ ¬ NotLeZero (P.format.datum a.toNat) := by
  rw [leXf2_zero]
  rcases P.format.datum a.toNat with _ | s | ⟨s, x⟩
  · simp [NotLeZero]
  · cases s <;> simp [NotLeZero]
  · rw [NotLeZero]
    rcases lt_trichotomy x 0 with h | h | h
    · simp [h, h.not_gt]
    · simp [h]
    · simp [h, h.not_gt, h.ne']

theorem saturate_of_le_zero (w : Nat) (h : ¬ NotLeZero (P.format.datum a.toNat)) :
    saturateUnsigned w (isNegative a) (P.format.datum a.toNat) = 0 := by
  rcases hd : P.format.datum a.toNat with _ | s | ⟨s, x⟩ <;> rw [hd, NotLeZero] at h
  · exact absurd trivial h
  · rw [saturateUnsigned, if_pos (by simpa using h)]
  · have htruncate : truncate x ≤ 0 := by
      unfold truncate
      split_ifs with hneg
      · exact Int.ceil_le.2 (by simpa using hneg.le)
      · rw [le_antisymm (not_lt.1 h) (not_lt.1 hneg), Int.floor_zero]
    rw [saturateUnsigned, Int.toNat_of_nonpos htruncate, Nat.zero_min]

end Tests

/-! ## Unsigned -/

theorem fixunsdfdi_ok (a : Precision.double.Rep) :
    fixunsdfdi a = .ok (BitVec.ofNat 64
      (saturateUnsigned 64 (isNegative a) (Precision.double.format.datum a.toNat))) := by
  have hiff := leXf2_zero_le_iff a
  by_cases h : NotLeZero (Precision.double.format.datum a.toNat)
  · exact (if_neg fun hle => hiff.1 hle h).trans (fixunsdfdiHalves_eq h)
  · rw [saturate_of_le_zero a 64 h]
    exact if_pos (hiff.2 h)

theorem fixunssfdi_ok (a : Precision.single.Rep) :
    fixunssfdi a = .ok (BitVec.ofNat 64
      (saturateUnsigned 64 (isNegative a) (Precision.single.format.datum a.toNat))) := by
  have hiff := leXf2_zero_le_iff a
  by_cases h : NotLeZero (Precision.single.format.datum a.toNat)
  · obtain ⟨da, hda, hdatum, hsign⟩ : ∃ da : Precision.double.Rep, extendsfdf2 a = .ok da ∧
        Precision.double.format.datum da.toNat = Precision.single.format.datum a.toNat ∧
        (Precision.double.format.signBit ≤ da.toNat ↔ Precision.single.format.signBit ≤ a.toNat) :=
      extendXfYf2_datum .sfdf2 a
    have hhalves := fixunsdfdiHalves_eq (hdatum.symm ▸ h)
    rw [hdatum, show isNegative da = isNegative a from decide_eq_decide.2 hsign] at hhalves
    refine (if_neg fun hle => hiff.1 hle h).trans ?_
    rw [← hhalves, hda]
    rfl
  · rw [saturate_of_le_zero a 64 h]
    exact if_pos (hiff.2 h)

/-- Both bodies of an unsigned conversion give the number cut to the range. -/
theorem saturated_word {P : Precision} (a : P.Rep) {body soft : Checked (BitVec 64)}
    (hbody : body = .ok (BitVec.ofNat 64
      (saturateUnsigned 64 (isNegative a) (P.format.datum a.toNat))))
    (hsoft : soft = .ok (BitVec.ofNat 64
      (saturateUnsigned 64 (isNegative a) (P.format.datum a.toNat)))) :
    ∃ r, body = .ok r ∧ soft = .ok r ∧
      r.toNat = saturateUnsigned 64 (isNegative a) (P.format.datum a.toNat) :=
  ⟨_, hbody, hsoft, Nat.mod_eq_of_lt (saturateUnsigned_lt _ _ _)⟩

/-- The two bodies of `__fixunsdfdi` give one word at every bit pattern: the number
without its fraction, cut to the range. -/
theorem fixunsdfdi_eq_soft (a : BitVec 64) :
    ∃ r, fixunsdfdi a = .ok r ∧ fixunsdfdiSoft a = .ok r ∧
      r.toNat = saturateUnsigned 64 (isNegative (P := .double) a)
        (Precision.double.format.datum a.toNat) :=
  saturated_word (P := .double) a (fixunsdfdi_ok a) (fixuint_eq .di (P := .double) a)

/-- The two bodies of `__fixunssfdi` give one word at every bit pattern. -/
theorem fixunssfdi_eq_soft (a : BitVec 32) :
    ∃ r, fixunssfdi a = .ok r ∧ fixunssfdiSoft a = .ok r ∧
      r.toNat = saturateUnsigned 64 (isNegative (P := .single) a)
        (Precision.single.format.datum a.toNat) :=
  saturated_word (P := .single) a (fixunssfdi_ok a) (fixuint_eq .di (P := .single) a)

/-! ## Signed -/

section Signed

variable {P : Precision} {a : P.Rep}

/-- A datum that the test for `a < 0.0` lets through. -/
def LtZero : Datum → Prop
  | .nan => False
  | .inf s => s = true
  | .finite _ x => x < 0

theorem leXf2_zero_lt_iff (a : P.Rep) :
    leXf2 a 0#P.typeWidth < 0 ↔ LtZero (P.format.datum a.toNat) := by
  rw [leXf2_zero]
  rcases P.format.datum a.toNat with _ | s | ⟨s, x⟩
  · simp [LtZero]
  · cases s <;> simp [LtZero]
  · dsimp only [LtZero]
    split_ifs with h h' <;> simp [h]

/-- A datum as the signed conversions have it: from `2 ^ 64` on the unsigned one
saturates, and its largest number is `-1`. -/
def wrapSaturated (negative : Bool) : Datum → Int
  | .nan => if negative then 0 else -1
  | .inf s => if s then 1 else -1
  | .finite _ x => if |x| < 2 ^ 64 then truncate x else if x < 0 then 1 else -1

/-- The unsigned conversion of a nonnegative number, as a signed one. -/
theorem ofNat_saturate {y : ℚ} (hy : 0 ≤ y) :
    BitVec.ofNat 64 (min (truncate y).toNat (2 ^ 64 - 1)) =
      BitVec.ofInt 64 (if y < 2 ^ 64 then truncate y else -1) := by
  have hfloor : truncate y = ⌊y⌋ := if_neg (not_lt.2 hy)
  have hnonneg : 0 ≤ ⌊y⌋ := Int.floor_nonneg.2 hy
  have hiff : ⌊y⌋ < 2 ^ 64 ↔ y < 2 ^ 64 := by
    rw [Int.floor_lt, Int.cast_pow, Int.cast_ofNat]
  rw [hfloor]
  by_cases hlt : y < 2 ^ 64
  · have := hiff.2 hlt
    rw [if_pos hlt, Nat.min_eq_left (by omega), ← BitVec.ofInt_natCast, Int.toNat_of_nonneg hnonneg]
  · have := mt hiff.1 hlt
    rw [if_neg hlt, Nat.min_eq_right (by omega)]
    decide

variable {fixunsigned : P.Rep → Checked (BitVec 64)}
  (hunsigned : ∀ a : P.Rep, fixunsigned a = .ok (BitVec.ofNat 64
    (saturateUnsigned 64 (isNegative a) (P.format.datum a.toNat))))

include hunsigned

theorem fixSigned_ok (a : P.Rep) :
    fixSigned fixunsigned a = .ok (BitVec.ofInt 64
      (wrapSaturated (isNegative a) (P.format.datum a.toNat))) := by
  have hiff := leXf2_zero_lt_iff a
  have hneg : fixSigned fixunsigned a = _ ∨ ¬ leXf2 a 0#P.typeWidth < 0 :=
    or_not_of_imp fun h => if_pos h
  have hself : ¬ leXf2 a 0#P.typeWidth < 0 → fixSigned fixunsigned a = _ := fun h => if_neg h
  rw [hunsigned, negXf2, datum_xor_signBit, ok_bind, or_iff_not_imp_right, not_not] at hneg
  rw [hunsigned] at hself
  rcases hd : P.format.datum a.toNat with _ | s | ⟨s, x⟩ <;>
    rw [hd] at hiff hneg hself
  · rw [hself (mt hiff.1 not_false)]
    cases isNegative a <;> decide
  · cases s
    · rw [hself (mt hiff.1 Bool.false_ne_true), saturateUnsigned, wrapSaturated]
      decide
    · rw [hneg (hiff.2 rfl), Datum.neg, saturateUnsigned, wrapSaturated]
      decide
  · rw [wrapSaturated]
    by_cases hx : x < 0
    · have hpart := ofNat_saturate (y := -x) (by linarith)
      rw [hneg (hiff.2 hx), Datum.neg, saturateUnsigned, hpart, abs_of_neg hx, if_pos hx]
      refine congrArg Except.ok ?_
      rw [← BitVec.ofInt_neg]
      split_ifs
      · rw [truncate_neg, neg_neg]
      · rfl
    · have hge := not_lt.1 hx
      rw [hself (mt hiff.1 hx), saturateUnsigned, ofNat_saturate hge, abs_of_nonneg hge, if_neg hx]

/-- The body agrees with `__fixint` exactly below `2 ^ 64`. -/
theorem fixSigned_eq_iff (a : P.Rep) {soft : Checked (BitVec 64)}
    (hsoft : soft = .ok (BitVec.ofInt 64
      (wrapSigned 64 (isNegative a) (P.format.datum a.toNat)))) :
    fixSigned fixunsigned a = soft ↔
      P.format.IsFinite a.toNat ∧ |P.format.value a.toNat| < 2 ^ 64 := by
  -- None of the saturated results is an end of the signed range.
  have hends : ∀ negative : Bool, ∀ z ∈ [(0 : Int), 1, -1],
      BitVec.ofInt 64 z ≠ BitVec.ofInt 64 (signedEnd 64 negative) := by decide
  rw [fixSigned_ok hunsigned, hsoft, Except.ok.injEq]
  rcases Format.word_cases (toNat_lt a) with h | h | h
  · rw [Format.datum_nan h, wrapSaturated, wrapSigned]
    refine iff_of_false (hends _ _ ?_) fun hfinite => absurd hfinite.1.2 (by omega)
    split_ifs <;> simp
  · rw [datum_eq_inf h, wrapSaturated, wrapSigned]
    refine iff_of_false (hends _ _ ?_) fun hfinite => absurd hfinite.1.2 (by omega)
    split_ifs <;> simp
  · rw [datum_eq_finite h, wrapSaturated, wrapSigned, and_iff_right h]
    by_cases hlt : |P.format.value a.toNat| < 2 ^ 64
    · rw [if_pos hlt, if_pos hlt]
      refine iff_of_true (BitVec.eq_of_toInt_eq ?_) hlt
      rw [BitVec.toInt_ofInt, BitVec.toInt_ofInt, Int.bmod_bmod]
    · rw [if_neg hlt, if_neg hlt]
      refine iff_of_false (hends _ _ ?_) hlt
      split_ifs <;> simp

end Signed

/-- The words of the two bodies of `__fixdfdi`.  They agree on the finite numbers
below `2 ^ 64`, the ones that wrap included, and on no other word. -/
theorem fixdfdi_eq_soft_iff (a : BitVec 64) :
    fixdfdi a = .ok (BitVec.ofInt 64 (wrapSaturated (isNegative (P := .double) a)
      (Precision.double.format.datum a.toNat))) ∧
    fixdfdiSoft a = .ok (BitVec.ofInt 64 (wrapSigned 64 (isNegative (P := .double) a)
      (Precision.double.format.datum a.toNat))) ∧
    (fixdfdi a = fixdfdiSoft a ↔ Precision.double.format.IsFinite a.toNat ∧
      |Precision.double.format.value a.toNat| < 2 ^ 64) :=
  have hsoft := fixint_eq .di (P := .double) a
  ⟨fixSigned_ok fixunsdfdi_ok a, hsoft, fixSigned_eq_iff (P := .double) fixunsdfdi_ok a hsoft⟩

/-- The words of the two bodies of `__fixsfdi`, which agree on the same numbers. -/
theorem fixsfdi_eq_soft_iff (a : BitVec 32) :
    fixsfdi a = .ok (BitVec.ofInt 64 (wrapSaturated (isNegative (P := .single) a)
      (Precision.single.format.datum a.toNat))) ∧
    fixsfdiSoft a = .ok (BitVec.ofInt 64 (wrapSigned 64 (isNegative (P := .single) a)
      (Precision.single.format.datum a.toNat))) ∧
    (fixsfdi a = fixsfdiSoft a ↔ Precision.single.format.IsFinite a.toNat ∧
      |Precision.single.format.value a.toNat| < 2 ^ 64) :=
  have hsoft := fixint_eq .di (P := .single) a
  ⟨fixSigned_ok fixunssfdi_ok a, hsoft, fixSigned_eq_iff (P := .single) fixunssfdi_ok a hsoft⟩

/-! ## There and back -/

/-- A double that holds an integer of the signed type is converted to it. -/
theorem fixdfdi_of_isInteger {r : Precision.double.Rep} {a : BitVec 64}
    (hr : IsInteger r a.toInt) : fixdfdi r = .ok a := by
  have hvalue := value_of_isInteger hr
  have hlow := BitVec.le_toInt a
  have hhigh := BitVec.toInt_lt (x := a)
  have hlt : |(a.toInt : ℚ)| < 2 ^ 64 := by
    have habs : |a.toInt| < 2 ^ 64 := abs_lt.2 ⟨by omega, by omega⟩
    exact_mod_cast habs
  refine (fixSigned_ok fixunsdfdi_ok r).trans ?_
  rw [datum_eq_finite hr.finite, wrapSaturated, hvalue, if_pos hlt, truncate_intCast,
    BitVec.ofInt_toInt]

/-- `__fixdfdi` undoes `__floatdidf` on every integer whose significant bits fit a
double. -/
theorem fixdfdi_floatdidf {a : BitVec 64} {c k : Nat} (ha : a.toInt.natAbs = c * 2 ^ k)
    (hc : c < 2 ^ 53) : (floatdidf a >>= fixdfdi) = .ok a := by
  have hlow := BitVec.le_toInt a
  have hhigh := BitVec.toInt_lt (x := a)
  obtain ⟨r, hr, hrNat⟩ := floatdidf_ok a
  have hbias : 2 ^ 64 ≤ 2 ^ Precision.double.format.bias :=
    Nat.pow_le_pow_right (by decide) (by decide)
  rw [hr]
  exact fixdfdi_of_isInteger (IsInteger.of_exact (P := .double) hrNat ha hc
    (Nat.lt_of_lt_of_le (by omega) hbias))

/-- The least integer, which is a power of two. -/
theorem fixdfdi_floatdidf_least :
    (0x8000000000000000#64).toInt.natAbs = 1 * 2 ^ 63 ∧
      (floatdidf 0x8000000000000000#64 >>= fixdfdi) = .ok 0x8000000000000000#64 :=
  ⟨by decide, fixdfdi_floatdidf (c := 1) (k := 63) (by decide) (by decide)⟩

end Cheesecloth.Builtins.FixConv
