import Cheesecloth.Builtins.Udivmodti4.Digits

/-!
# `__udivmodti4` divides

The quotient and the remainder on the four paths of `__udivmodti4`.  The paths
with a 64-bit divisor call `udiv128by64to64default`, whose specification is
`Digits.locals_spec`.  The path with a larger divisor is the shift-and-subtract
loop.

The loop compares without a branch: it copies the sign bit of
`divisor - dividend - 1` over a whole word.  That sign bit is the comparison
only when the difference is smaller than half the word in both directions,
which is what `ShiftSubInv` keeps: `dividend < 2 * divisor` bounds it from one
side, and `divisor ≤ dividend + 2 ^ 127` from the other.
-/

namespace Cheesecloth.Builtins.Udivmodti4

open CodeLib CodeLib.Checked CodeLib.Bits

/-! ## The shift-and-subtract loop -/

/-- The difference that the branch-free comparison takes the sign of is
smaller than half the word in both directions. -/
structure ShiftSubInv (t : ShiftSub) : Prop where
  dividend_lt : t.dividend.toNat < 2 * t.divisor.toNat
  divisor_le : t.divisor.toNat ≤ t.dividend.toNat + 2 ^ 127

/-- The mask `s` is all ones exactly when the divisor can be subtracted. -/
theorem mask_eq {t : ShiftSub} (h : ShiftSubInv t) :
    (t.divisor - t.dividend - 1#128).sshiftRight 127 =
      if t.divisor.toNat ≤ t.dividend.toNat then BitVec.allOnes 128 else 0#128 := by
  have h1 := h.dividend_lt
  have h2 := h.divisor_le
  have hd := t.dividend.isLt
  have hv := t.divisor.isLt
  have hdiff : (t.divisor - t.dividend - 1#128).toNat
      = (t.divisor.toNat + 2 ^ 128 - t.dividend.toNat + 2 ^ 128 - 1) % 2 ^ 128 := by
    simp only [BitVec.toNat_sub, BitVec.toNat_ofNat]
    omega
  split
  · exact signMask_of_msb (x := t.divisor - t.dividend - 1#128) (by rw [hdiff]; omega)
  · exact signMask_of_not_msb (x := t.divisor - t.dividend - 1#128) (by rw [hdiff]; omega)

/-- One iteration: the branch that the source's comment describes. -/
theorem shiftSubStep_spec {t : ShiftSub} (h : ShiftSubInv t)
    (hq : 2 * t.quotientLow.toNat + 1 < 2 ^ 64) :
    ∃ t', shiftSubStep t = .ok t' ∧
      t'.divisor.toNat = t.divisor.toNat / 2 ∧
      (t.divisor.toNat ≤ t.dividend.toNat ∧
          t'.quotientLow.toNat = 2 * t.quotientLow.toNat + 1 ∧
          t'.dividend.toNat = t.dividend.toNat - t.divisor.toNat ∨
        t.dividend.toNat < t.divisor.toNat ∧
          t'.quotientLow.toNat = 2 * t.quotientLow.toNat ∧
          t'.dividend.toNat = t.dividend.toNat) := by
  have hmask := mask_eq h
  have hstep : shiftSubStep t = .ok
      ⟨t.quotientLow <<< 1 |||
          low ((t.divisor - t.dividend - 1#128).sshiftRight 127 &&& 1#128),
        t.dividend - (t.divisor &&& (t.divisor - t.dividend - 1#128).sshiftRight 127),
        t.divisor >>> 1⟩ := by
    rw [shiftSubStep, shl_ok t.quotientLow (show (1 : Int) = ((1 : Nat) : Int) from rfl)
        (by decide), ok_bind,
      sar_ok _ (show (128 - 1 : Int) = ((127 : Nat) : Int) from rfl) (by decide), ok_bind,
      shr_ok t.divisor (show (1 : Int) = ((1 : Nat) : Int) from rfl) (by decide), ok_bind,
      pure_eq_ok]
  refine ⟨_, hstep, ?_, ?_⟩
  · rw [BitVec.toNat_ushiftRight, Nat.shiftRight_eq_div_pow]
  · have hdouble : (t.quotientLow <<< 1).toNat = t.quotientLow.toNat * 2 := by
      rw [BitVec.toNat_shiftLeft, Nat.shiftLeft_eq]
      omega
    rcases Nat.lt_or_ge t.dividend.toNat t.divisor.toNat with hlt | hge
    · rw [if_neg (Nat.not_le_of_lt hlt)] at hmask
      refine Or.inr ⟨hlt, ?_, ?_⟩
      · rw [hmask, show low (0#128 &&& 1#128) = 0#64 from rfl, BitVec.or_zero, hdouble,
          Nat.mul_comm]
      · rw [hmask, BitVec.and_zero, BitVec.sub_zero]
    · rw [if_pos hge] at hmask
      refine Or.inl ⟨hge, ?_, ?_⟩
      · rw [hmask, show low (BitVec.allOnes 128 &&& 1#128) = 1#64 from rfl, BitVec.toNat_or,
          hdouble, show (1#64).toNat = 1 from rfl, Nat.mul_comm,
          ← Nat.two_pow_add_eq_or_of_lt (i := 1) (by decide)]
      · rw [hmask, BitVec.and_allOnes, BitVec.toNat_sub_of_le hge]

/-- The loop, from `n` values of `shift` on.  The divisor of the loop is the
original divisor `b` shifted to the current bit of the quotient, and the
dividend is what is left of the original dividend. -/
theorem shiftSubLoop_spec {b : Nat} (hb : 0 < b) :
    ∀ (n : Nat) (t : ShiftSub), t.dividend.toNat < b * 2 ^ n →
      (∀ m, n = m + 1 → t.divisor.toNat = b * 2 ^ m ∧ ShiftSubInv t) →
      (t.quotientLow.toNat + 1) * 2 ^ n ≤ 2 ^ 64 →
      ∃ t', shiftSubLoop n t = .ok t' ∧
        t'.quotientLow.toNat = t.quotientLow.toNat * 2 ^ n + t.dividend.toNat / b ∧
        t'.dividend.toNat = t.dividend.toNat % b := by
  intro n
  induction n with
  | zero =>
    intro t hd _ _
    rw [Nat.pow_zero, Nat.mul_one] at hd
    refine ⟨t, rfl, ?_, ?_⟩
    · rw [Nat.div_eq_of_lt hd]
      omega
    · rw [Nat.mod_eq_of_lt hd]
  | succ n ih =>
    intro t hd hdiv hq
    obtain ⟨hdivisor, hinv⟩ := hdiv n rfl
    have hbn : b ≤ b * 2 ^ n := Nat.le_mul_of_pos_right b (Nat.two_pow_pos n)
    have hhalf : ∀ m, n = m + 1 → b * 2 ^ n / 2 = b * 2 ^ m := by
      intro m hm
      rw [hm, Nat.pow_succ, ← Nat.mul_assoc, Nat.mul_div_cancel _ (by decide)]
    have hlt128 := t.divisor.isLt
    rw [Nat.pow_succ, ← Nat.mul_assoc] at hd hq
    have hq1 : (t.quotientLow.toNat + 1) * 1 ≤ (t.quotientLow.toNat + 1) * 2 ^ n :=
      Nat.mul_le_mul_left _ (Nat.two_pow_pos n)
    obtain ⟨t', hstep, hdiv', hcase⟩ := shiftSubStep_spec hinv (by omega)
    -- the next state meets the invariant whichever way the comparison went
    have hnext : ∀ d : Nat, t'.dividend.toNat = d → d < b * 2 ^ n →
        ∀ m, n = m + 1 → t'.divisor.toNat = b * 2 ^ m ∧ ShiftSubInv t' := by
      intro d hd' hdlt m hm
      have hdm : t'.divisor.toNat = b * 2 ^ m := by rw [hdiv', hdivisor, hhalf m hm]
      have hmul : b * 2 ^ n = 2 * (b * 2 ^ m) := by rw [hm, Nat.pow_succ]; ring
      exact ⟨hdm, by omega, by omega⟩
    rcases hcase with ⟨hge, hq', hd'⟩ | ⟨hlt, hq', hd'⟩
    · obtain ⟨t'', hloop, hq'', hd''⟩ := ih t' (by omega) (hnext _ hd' (by omega)) (by
        rw [hq']
        calc (2 * t.quotientLow.toNat + 1 + 1) * 2 ^ n
            = (t.quotientLow.toNat + 1) * 2 ^ n * 2 := by ring
          _ ≤ 2 ^ 64 := hq)
      have hsub : t.dividend.toNat = t'.dividend.toNat + b * 2 ^ n := by omega
      refine ⟨t'', by rw [shiftSubLoop, hstep, ok_bind, hloop], ?_, ?_⟩
      · rw [hq'', hq', hsub, Nat.add_mul_div_left _ _ hb, Nat.pow_succ]
        ring
      · rw [hd'', hsub, Nat.add_mul_mod_self_left]
    · obtain ⟨t'', hloop, hq'', hd''⟩ := ih t' (by omega) (hnext _ hd' (by omega)) (by
        rw [hq']
        calc (2 * t.quotientLow.toNat + 1) * 2 ^ n
            ≤ (t.quotientLow.toNat + 1) * 2 * 2 ^ n := Nat.mul_le_mul_right _ (by omega)
          _ = (t.quotientLow.toNat + 1) * 2 ^ n * 2 := by ring
          _ ≤ 2 ^ 64 := hq)
      refine ⟨t'', by rw [shiftSubLoop, hstep, ok_bind, hloop], ?_, ?_⟩
      · rw [hq'', hq', hd', Nat.pow_succ]
        ring
      · rw [hd'', hd']

/-- The binary order of a number from the order of its quotient by `2 ^ 64`. -/
private theorem order_of_div {x l : Nat} (hlow : 2 ^ l ≤ x / 2 ^ 64)
    (hhigh : x / 2 ^ 64 < 2 ^ (l + 1)) : 2 ^ (l + 64) ≤ x ∧ x < 2 ^ (l + 65) := by
  have h64 : 2 ^ (l + 64) = 2 ^ l * 2 ^ 64 := Nat.pow_add 2 l 64
  have h65 : 2 ^ (l + 65) = 2 ^ (l + 1) * 2 ^ 64 := by rw [← Nat.pow_add]
  rw [h64, h65]
  omega

/-- The binary order of a word with a non-zero high half. -/
theorem order_of_high {x : BitVec 128} (h : 0 < (high x).toNat) :
    2 ^ ((high x).toNat.log2 + 64) ≤ x.toNat ∧
      x.toNat < 2 ^ ((high x).toNat.log2 + 65) ∧ (high x).toNat.log2 < 64 := by
  have hlow := Nat.log2_self_le (Nat.ne_of_gt h)
  have hhigh := Nat.lt_log2_self (n := (high x).toNat)
  have hlog : (high x).toNat.log2 < 64 := by
    rw [Nat.log2_lt (Nat.ne_of_gt h)]
    exact (high x).isLt
  generalize (high x).toNat.log2 = l at *
  rw [high_toNat] at hlow hhigh
  have horder := order_of_div hlow hhigh
  exact ⟨horder.1, horder.2, hlog⟩

/-- The path with a divisor of more than 64 bits. -/
theorem shiftSub_path {a b : BitVec 128} (hab : b.toNat ≤ a.toNat)
    (hb : 0 < (high b).toNat) :
    ∃ (k : Nat) (t : ShiftSub),
      clz (high b) = .ok ((63 - (high b).toNat.log2 : Nat) : Int) ∧
      clz (high a) = .ok ((63 - (high a).toNat.log2 : Nat) : Int) ∧
      k + (high b).toNat.log2 = (high a).toNat.log2 ∧ k < 64 ∧
      shiftSubLoop (k + 1) ⟨0#64, a, b <<< k⟩ = .ok t ∧
      t.quotientLow.toNat = a.toNat / b.toNat ∧ t.dividend.toNat = a.toNat % b.toNat := by
  have ha : 0 < (high a).toNat := by
    rw [high_toNat] at hb ⊢
    omega
  obtain ⟨hb1, hb2, hb3⟩ := order_of_high hb
  obtain ⟨ha1, ha2, ha3⟩ := order_of_high ha
  have hle : (high b).toNat.log2 ≤ (high a).toNat.log2 := by
    by_contra hgt
    have : 2 ^ ((high a).toNat.log2 + 65) ≤ 2 ^ ((high b).toNat.log2 + 64) :=
      Nat.pow_le_pow_right (by decide) (by omega)
    omega
  obtain ⟨k, hk⟩ : ∃ k, k + (high b).toNat.log2 = (high a).toNat.log2 :=
    ⟨(high a).toNat.log2 - (high b).toNat.log2, by omega⟩
  -- the shifted divisor has the order of the dividend
  have hlow : 2 ^ ((high a).toNat.log2 + 64) ≤ b.toNat * 2 ^ k := by
    rw [← hk, show k + (high b).toNat.log2 + 64 = (high b).toNat.log2 + 64 + k by omega,
      Nat.pow_add]
    exact Nat.mul_le_mul_right _ hb1
  have hhigh : b.toNat * 2 ^ k < 2 ^ ((high a).toNat.log2 + 65) := by
    rw [← hk, show k + (high b).toNat.log2 + 65 = (high b).toNat.log2 + 65 + k by omega,
      Nat.pow_add]
    exact Nat.mul_lt_mul_of_pos_right hb2 (Nat.two_pow_pos k)
  have htop : 2 ^ ((high a).toNat.log2 + 64) ≤ 2 ^ 127 :=
    Nat.pow_le_pow_right (by decide) (by omega)
  have hdouble : 2 ^ ((high a).toNat.log2 + 65) = 2 * 2 ^ ((high a).toNat.log2 + 64) := by
    rw [show (high a).toNat.log2 + 65 = (high a).toNat.log2 + 64 + 1 by omega, Nat.pow_succ,
      Nat.mul_comm]
  have hdivisor : (b <<< k).toNat = b.toNat * 2 ^ k := by
    rw [BitVec.toNat_shiftLeft, Nat.shiftLeft_eq, Nat.mod_eq_of_lt (by omega)]
  have hbpos : 0 < b.toNat := Nat.lt_of_lt_of_le (Nat.two_pow_pos _) hb1
  obtain ⟨t, hloop, hq, hr⟩ := shiftSubLoop_spec hbpos (k + 1) ⟨0#64, a, b <<< k⟩
    (by
      show a.toNat < b.toNat * 2 ^ (k + 1)
      rw [Nat.pow_succ, ← Nat.mul_assoc]
      omega)
    (by
      intro m hm
      obtain rfl : k = m := by omega
      refine ⟨hdivisor, ?_, ?_⟩
      · show a.toNat < 2 * (b <<< k).toNat
        omega
      · show (b <<< k).toNat ≤ a.toNat + 2 ^ 127
        omega)
    (by
      show (0 + 1) * 2 ^ (k + 1) ≤ 2 ^ 64
      rw [Nat.zero_add, Nat.one_mul]
      exact Nat.pow_le_pow_right (by decide) (by omega))
  refine ⟨k, t, clz_ok hb (by omega), clz_ok ha (by omega), hk, by omega, hloop, ?_, hr⟩
  rw [hq]
  show (0#64).toNat * 2 ^ (k + 1) + a.toNat / b.toNat = a.toNat / b.toNat
  rw [BitVec.toNat_zero, Nat.zero_mul, Nat.zero_add]

/-! ## The whole function -/

/-- The specification of the 64-bit division, as its callers use it. -/
theorem udiv128by64to64_spec {u1 v : BitVec 64} (u0 : BitVec 64) (h : u1.toNat < v.toNat) :
    ∃ q r, udiv128by64to64 u1 u0 v = .ok (q, r) ∧
      q.toNat = (u1.toNat * 2 ^ 64 + u0.toNat) / v.toNat ∧
      r.toNat = (u1.toNat * 2 ^ 64 + u0.toNat) % v.toNat := by
  obtain ⟨l, hl, hspec⟩ := locals_spec u0 h
  refine ⟨l.result, l.r, ?_, hspec.result_eq, hspec.r_eq⟩
  rw [udiv128by64to64, udiv128by64to64default, hl, ok_bind, pure_eq_ok]

/-- The specification of `__udivmodti4` on all of its paths, whether or not
`rem` is null. -/
theorem udivmodti4_spec {a b : BitVec 128} (hb : b ≠ 0#128) (rem : Bool) :
    ∃ q r, udivmodti4 a b rem = .ok (q, store rem r) ∧
      q.toNat = a.toNat / b.toNat ∧ r.toNat = a.toNat % b.toNat := by
  have hbpos : 0 < b.toNat := by
    rcases Nat.eq_zero_or_pos b.toNat with h | h
    · exact absurd (BitVec.eq_of_toNat_eq (by simpa using h)) hb
    · exact h
  have hsplitA := toNat_halves a
  have hsplitB := toNat_halves b
  by_cases hlt : b > a
  · have hlt' : a.toNat < b.toNat := BitVec.lt_def.1 hlt
    rw [udivmodti4, if_pos hlt]
    refine ⟨0#128, a, rfl, ?_, ?_⟩
    · rw [Nat.div_eq_of_lt hlt', BitVec.toNat_zero]
    · rw [Nat.mod_eq_of_lt hlt']
  by_cases hhigh : high b = 0#64
  · have hb0 : b.toNat = (low b).toNat := by
      rw [hsplitB, hhigh, BitVec.toNat_zero]
      omega
    obtain ⟨hpassed, hcall⟩ := udivmodti4_narrow a rem hb hhigh
    obtain ⟨q, r, hdiv, hq, hr⟩ := udiv128by64to64_spec (low a) (BitVec.lt_def.1 hpassed)
    -- the high digit of the quotient first, then the rest below the divisor
    have htwo := two_digits_div_mod (u := 0) (b := 2 ^ 64) (x := (high a).toNat)
      (y := (low a).toNat) (Nat.zero_lt_of_lt (BitVec.lt_def.1 hpassed))
    simp only [Nat.zero_mul, Nat.zero_add] at htwo
    rw [passedHigh_toNat] at hq hr
    refine ⟨utwords (passedQuotient a b) q, utwords 0#64 r, ?_, ?_, ?_⟩
    · rw [hcall hlt, hdiv, ok_bind]
      rfl
    · rw [utwords_toNat, passedQuotient_toNat, hq, htwo.1, ← hsplitA, hb0]
    · rw [utwords_toNat, hr, htwo.2, ← hsplitA, hb0, BitVec.toNat_zero, Nat.zero_mul,
        Nat.zero_add]
  · rw [udivmodti4, if_neg hlt, if_neg hhigh]
    have hhpos : 0 < (high b).toNat := by
      rcases Nat.eq_zero_or_pos (high b).toNat with h | h
      · exact absurd (BitVec.eq_of_toNat_eq (by simpa using h)) hhigh
      · exact h
    have hle : b.toNat ≤ a.toNat := Nat.le_of_not_lt (fun h => hlt (BitVec.lt_def.2 h))
    obtain ⟨k, t, hclzB, hclzA, hk, hk64, hloop, hq, hr⟩ := shiftSub_path hle hhpos
    have hloga := (order_of_high (x := a) (by rw [high_toNat] at hhpos ⊢; omega)).2.2
    have hshift : ((63 - (high b).toNat.log2 : Nat) : Int)
        - ((63 - (high a).toNat.log2 : Nat) : Int) = k := by omega
    refine ⟨utwords 0#64 t.quotientLow, t.dividend, ?_, ?_, hr⟩
    · rw [hclzB, ok_bind, hclzA, ok_bind]
      dsimp only
      rw [hshift, shl_ok b rfl (by omega), ok_bind,
        show ((k : Int) + 1).toNat = k + 1 by omega, hloop, ok_bind, pure_eq_ok]
    · rw [utwords_toNat, hq, BitVec.toNat_zero, Nat.zero_mul, Nat.zero_add]

/-- `__udivmodti4` answers the floor of the quotient and stores the remainder.
It reaches no shift count outside the word and no division by zero: each such
operation of the model answers a fault instead. -/
theorem udivmodti4_div_mod {a b : BitVec 128} (hb : b ≠ 0#128) :
    ∃ q r, udivmodti4 a b true = .ok (q, some r) ∧
      q.toNat = a.toNat / b.toNat ∧ r.toNat = a.toNat % b.toNat :=
  udivmodti4_spec hb true

/-- The shift-and-subtract path, at a divisor of 65 bits. -/
theorem udivmodti4_div_mod_wide_divisor :
    0x1FEDCBA9876543210#128 ≠ 0#128 ∧
    ∃ q r, udivmodti4 (BitVec.allOnes 128) 0x1FEDCBA9876543210#128 true = .ok (q, some r) ∧
      q.toNat = (BitVec.allOnes 128).toNat / (0x1FEDCBA9876543210#128).toNat ∧
      r.toNat = (BitVec.allOnes 128).toNat % (0x1FEDCBA9876543210#128).toNat :=
  ⟨by decide, udivmodti4_div_mod (by decide)⟩

/-- The quotient of the whole word by a 64-bit divisor takes two quotient
words. -/
example : udivmodti4 (BitVec.allOnes 128) 3#128 true =
    .ok (0x55555555555555555555555555555555#128, some 0#128) := by decide +kernel

end Cheesecloth.Builtins.Udivmodti4
