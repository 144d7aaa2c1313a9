import Cheesecloth.CodeLib.Datum
import Cheesecloth.Builtins.SoftFloat.FpLib

/-!
# What the words of a precision stand for

The data of `CodeLib.Datum` on the bit patterns of `fp_lib.h`: how the masks of
the macros tell NaNs, infinities and finite numbers apart, what the sign bit
does, and which special words the routines put together.
-/

namespace Cheesecloth.Builtins.SoftFloat

open CodeLib

variable {P : Precision} {a b : P.Rep}

theorem abs_gt_infRep_iff :
    a &&& P.absMask > P.infRep ↔ P.format.infPattern < a.toNat % P.format.signBit := by
  rw [gt_iff_lt, BitVec.lt_def, abs_toNat, P.infRep_toNat]

theorem abs_eq_infRep_iff :
    a &&& P.absMask = P.infRep ↔ a.toNat % P.format.signBit = P.format.infPattern := by
  rw [← BitVec.toNat_inj, abs_toNat, P.infRep_toNat]

theorem datum_eq_finite (h : P.format.IsFinite a.toNat) :
    P.format.datum a.toNat = .finite (isNegative a) (P.format.value a.toNat) :=
  Format.datum_finite h

theorem datum_eq_inf (h : a.toNat % P.format.signBit = P.format.infPattern) :
    P.format.datum a.toNat = .inf (isNegative a) :=
  Format.datum_inf h

/-! ## The sign bit -/

theorem xor_signBit_pattern (a : P.Rep) :
    (a ^^^ P.signBit).toNat % P.format.signBit = a.toNat % P.format.signBit := by
  rw [BitVec.toNat_xor, P.signBit_toNat, P.format_signBit, Nat.xor_mod_two_pow, Nat.mod_self,
    Nat.xor_zero]

theorem xor_signBit_isNegative (a : P.Rep) : isNegative (a ^^^ P.signBit) = !isNegative a := by
  rw [← testBit_sign, BitVec.toNat_xor, P.signBit_toNat, Nat.testBit_xor, testBit_sign,
    Nat.testBit_two_pow_self, Bool.xor_true]

theorem eq_of_sign_pattern (hsign : isNegative a = isNegative b)
    (hpattern : a.toNat % P.format.signBit = b.toNat % P.format.signBit) : a = b := by
  apply BitVec.eq_of_toNat_eq
  exact Format.eq_of_pattern_eq (toNat_lt a) (toNat_lt b) (decide_eq_decide.1 hsign) hpattern

/-- The flip of the sign bit is the standard's negation, of NaNs too. -/
theorem datum_xor_signBit (a : P.Rep) :
    P.format.datum (a ^^^ P.signBit).toNat = (P.format.datum a.toNat).neg := by
  have hpattern := xor_signBit_pattern a
  have hsign := xor_signBit_isNegative a
  rcases Format.word_cases (toNat_lt a) with h | h | h
  · rw [Format.datum_nan h, Format.datum_nan (hpattern ▸ h), Datum.neg]
  · rw [datum_eq_inf h, datum_eq_inf (hpattern ▸ h), hsign, Datum.neg]
  · have hfinite : P.format.IsFinite (a ^^^ P.signBit).toNat := ⟨toNat_lt _, hpattern ▸ h.2⟩
    have hunits : P.format.units (a ^^^ P.signBit).toNat = -P.format.units a.toNat := by
      rw [units_eq, units_eq, hpattern, hsign]
      cases isNegative a <;> simp
    rw [datum_eq_finite h, datum_eq_finite hfinite, hsign, Datum.neg, Format.value, Format.value,
      hunits, Int.cast_neg, neg_div]

/-! ## Special words -/

/-- `a | quietBit` is a quiet NaN if `a` is a NaN. -/
theorem delivers_quiet (h : P.format.infPattern < a.toNat % P.format.signBit) :
    P.format.Delivers .nan (a ||| P.quietBit).toNat := by
  refine ⟨toNat_lt _, ?_⟩
  have hquiet : P.quietBit.toNat = 2 ^ (P.significandBits - 1) := by cases P <;> rfl
  have hbits := P.significandBits_bounds
  have hmod : (a ||| P.quietBit).toNat % P.format.signBit =
      a.toNat % P.format.signBit ||| 2 ^ (P.significandBits - 1) := by
    rw [BitVec.toNat_or, hquiet, P.format_signBit, Nat.or_mod_two_pow,
      Nat.mod_eq_of_lt (Nat.pow_lt_pow_right (by decide) (by omega))]
  rw [hmod]
  generalize a.toNat % P.format.signBit = m at *
  -- above the quiet bit the pattern is `2 * maxExponent` or one more, and the bit is then set
  have hpow : 2 ^ P.significandBits = 2 * 2 ^ (P.significandBits - 1) := by
    rw [← Nat.pow_succ', Nat.succ_eq_add_one, Nat.sub_add_cancel (by omega)]
  have hle : P.maxExponent ≤ m / 2 ^ (P.significandBits - 1) / 2 := by
    rw [Nat.div_div_eq_div_mul, Nat.mul_comm _ 2, ← hpow,
      Nat.le_div_iff_mul_le (Nat.two_pow_pos _)]
    exact Nat.le_of_lt h
  calc P.format.infPattern + 2 ^ (P.format.significandBits - 1)
      = (P.maxExponent * 2 + 1) * 2 ^ (P.significandBits - 1) := by
        rw [P.format_infPattern, P.format_significandBits, hpow]
        ring
    _ ≤ (m / 2 ^ (P.significandBits - 1) / 2 * 2 + 1) * 2 ^ (P.significandBits - 1) :=
        Nat.mul_le_mul_right _ (by omega)
    _ ≤ m ||| 2 ^ (P.significandBits - 1) := by
        rw [Bits.or_two_pow_eq]
        exact Nat.le_add_right _ _

theorem delivers_qnan : P.format.Delivers .nan P.qnanRep.toNat := by
  refine ⟨toNat_lt _, ?_⟩
  cases P <;> decide

theorem delivers_inf (negative : Bool) :
    P.format.Delivers (.inf negative)
      (P.infRep ||| if negative then P.signBit else 0#P.typeWidth).toNat := by
  have hinf := Format.infPattern_lt_signBit (f := P.format)
  show _ = P.format.pack _ _
  rw [or_sign_toNat negative (P.infRep_toNat ▸ hinf), P.infRep_toNat, Format.pack, Nat.min_self]

theorem delivers_zero (negative : Bool) :
    P.format.Delivers (.zero negative)
      (if negative then P.signBit else 0#P.typeWidth).toNat := by
  have h := or_sign_toNat (x := 0#P.typeWidth) negative
    (by rw [BitVec.toNat_zero]; exact Nat.two_pow_pos _)
  rwa [BitVec.zero_or, BitVec.toNat_zero, ← Nat.zero_min P.format.infPattern] at h

theorem delivers_self (h : a.toNat % P.format.signBit = P.format.infPattern) :
    P.format.Delivers (.inf (isNegative a)) a.toNat := by
  have hpack := Format.eq_pack (toNat_lt a) (Nat.le_of_eq h)
  rwa [h] at hpack

end Cheesecloth.Builtins.SoftFloat
