import Cheesecloth.Builtins.SoftFloat.FpExtend

/-!
# The model of `fp_trunc_impl.inc`

The conversions to a narrower format, over the same macros as the extensions.

* `truncXfYf2_delivers`: a truncation runs without a fault and rounds to
  nearest, ties to even, with overflow, gradual underflow and quiet NaNs.
* `trunc_extend`: a truncation undoes an extension, up to the quiet bit of a
  NaN.
* `truncdfhf2_extendsfdf2`: the way to half precision through double precision
  rounds once.

In the normal range the exponent is rebiased in the narrow word, where both
terms may have lost their high bits.  The difference is exact
(`truncAbs_normal`).
-/

namespace Cheesecloth.Builtins.SoftFloat

open CodeLib CodeLib.Checked

/-! ## Macros -/

/-- The truncations: `__truncsfhf2`, `__truncdfhf2` and `__truncdfsf2`. -/
inductive Truncation where
  | sfhf2
  | dfhf2
  | dfsf2
  deriving DecidableEq, Repr

namespace Truncation

def src : Truncation → FloatType
  | sfhf2 => .single
  | dfhf2 => .double
  | dfsf2 => .double

def dst : Truncation → FloatType
  | sfhf2 => .half
  | dfhf2 => .half
  | dfsf2 => .single

variable (T : Truncation)

/-- `srcSigBits - dstSigBits`. -/
def sigDiff : Nat := T.src.sigBits - T.dst.sigBits

/-- `srcExpBias - dstExpBias`. -/
def biasDiff : Nat := T.src.expBias - T.dst.expBias

def roundMask : T.src.Rep := 1#T.src.bits <<< T.sigDiff - 1#T.src.bits

def halfway : T.src.Rep := 1#T.src.bits <<< (T.sigDiff - 1)

def underflow : T.src.Rep := BitVec.ofNat T.src.bits (T.biasDiff + 1) <<< T.src.sigBits

def overflow : T.src.Rep := BitVec.ofNat T.src.bits (T.biasDiff + T.dst.infExp) <<< T.src.sigBits

end Truncation

/-! ## The routine -/

/-- The rounding of `absResult` by `roundBits`, which is in both branches of
`__truncXfYf2__`. -/
def truncRound (T : Truncation) (absResult : T.dst.Rep) (roundBits : T.src.Rep) : T.dst.Rep :=
  if roundBits > T.halfway then absResult + 1#T.dst.bits
  else if roundBits = T.halfway then absResult + (absResult &&& 1#T.dst.bits)
  else absResult

/-- The underflow branch of `__truncXfYf2__`. -/
def truncUnderflow (T : Truncation) (a : T.src.Rep) : Checked T.dst.Rep :=
  let aAbs := a &&& T.src.absMask
  let aExp := (aAbs >>> T.src.sigBits).toNat
  let shift : Int := T.biasDiff - aExp + 1
  let significand := a &&& T.src.significandMask ||| T.src.minNormal
  if shift > T.src.sigBits then
    return 0#T.dst.bits
  else do
    let sticky := decide ((← shl significand (T.src.bits - shift)) ≠ 0#T.src.bits)
    let denormalizedSignificand := (← shr significand shift) |||
      (if sticky then 1#T.src.bits else 0#T.src.bits)
    let absResult := (denormalizedSignificand >>> T.sigDiff).setWidth T.dst.bits
    return truncRound T absResult (denormalizedSignificand &&& T.roundMask)

/-- `absResult` of `__truncXfYf2__`. -/
def truncAbs (T : Truncation) (a : T.src.Rep) : Checked T.dst.Rep :=
  let aAbs := a &&& T.src.absMask
  if aAbs - T.underflow < aAbs - T.overflow then
    -- in the range of the normal numbers of the destination
    let absResult := (aAbs >>> T.sigDiff).setWidth T.dst.bits -
      BitVec.ofNat T.dst.bits T.biasDiff <<< T.dst.sigBits
    return truncRound T absResult (aAbs &&& T.roundMask)
  else if aAbs > T.src.infinity then
    return T.dst.infinity ||| T.dst.qNaN |||
      ((aAbs &&& T.src.nanCode) >>> T.sigDiff).setWidth T.dst.bits &&& T.dst.nanCode
  else if aAbs ≥ T.overflow then
    return T.dst.infinity
  else
    truncUnderflow T a

/-- `__truncXfYf2__`. -/
def truncXfYf2 (T : Truncation) (a : T.src.Rep) : Checked T.dst.Rep := do
  let sign := a &&& T.src.signMask
  let absResult ← truncAbs T a
  return absResult ||| (sign >>> (T.src.bits - T.dst.bits)).setWidth T.dst.bits

/-- `__truncsfhf2`. -/
def truncsfhf2 (a : BitVec 32) : Checked (BitVec 16) := truncXfYf2 .sfhf2 a

/-- `__truncdfhf2`. -/
def truncdfhf2 (a : BitVec 64) : Checked (BitVec 16) := truncXfYf2 .dfhf2 a

/-- `__truncdfsf2`. -/
def truncdfsf2 (a : BitVec 64) : Checked (BitVec 32) := truncXfYf2 .dfsf2 a

/-! ## The macros as numbers -/

namespace Truncation

variable (T : Truncation)

theorem widens : T.dst.format.Widens T.src.format T.sigDiff T.biasDiff := by
  cases T <;> exact ⟨rfl, rfl⟩

theorem src_sigBits : T.src.sigBits = T.dst.sigBits + T.sigDiff := by
  cases T <;> rfl

theorem two_le_sigDiff : 2 ≤ T.sigDiff := by
  cases T <;> decide

theorem sigBits_le_biasDiff : T.src.sigBits ≤ T.biasDiff := by
  cases T <;> decide

theorem underflow_toNat : T.underflow.toNat = (T.biasDiff + 1) * 2 ^ T.src.sigBits := by
  cases T <;> rfl

theorem overflow_toNat :
    T.overflow.toNat = (T.biasDiff + T.dst.infExp) * 2 ^ T.src.sigBits := by
  cases T <;> rfl

theorem halfway_toNat : T.halfway.toNat = 2 ^ (T.sigDiff - 1) := by
  cases T <;> rfl

theorem roundMask_toNat : T.roundMask.toNat = 2 ^ T.sigDiff - 1 := by
  cases T <;> rfl

/-- The overflow threshold is the narrow infinity, and lies below the wide
one. -/
theorem overflow_le : T.overflow.toNat ≤ T.src.format.infPattern := by
  cases T <;> decide

theorem underflow_lt_overflow : T.underflow.toNat < T.overflow.toNat := by
  cases T <;> decide

end Truncation

/-! ## Correctness -/

section Trunc

variable {T : Truncation}

/-- The rounding, on the quotient less an even constant. -/
theorem truncRound_toNat {absResult : T.dst.Rep} {roundBits : T.src.Rep} {n c : Nat}
    (hround : roundBits.toNat = n % 2 ^ T.sigDiff) (habs : absResult.toNat + c = n / 2 ^ T.sigDiff)
    (hc : c % 2 = 0) (hfit : absResult.toNat + 1 < 2 ^ T.dst.bits) :
    (truncRound T absResult roundBits).toNat + c = roundShift n T.sigDiff := by
  have hd := T.two_le_sigDiff
  have hone : (1#T.dst.bits).toNat = 1 := by cases T <;> rfl
  have hbit : (absResult &&& 1#T.dst.bits).toNat = absResult.toNat % 2 := by
    rw [BitVec.toNat_and, hone, Nat.and_one_is_mod]
  have hpow : 2 ^ T.sigDiff = 2 * 2 ^ (T.sigDiff - 1) := by
    rw [← Nat.pow_succ', Nat.succ_eq_add_one, Nat.sub_add_cancel (by omega)]
  have hgt : roundBits > T.halfway ↔ 2 ^ T.sigDiff < 2 * (n % 2 ^ T.sigDiff) := by
    rw [gt_iff_lt, BitVec.lt_def, hround, T.halfway_toNat, hpow]
    omega
  have heq : roundBits = T.halfway ↔ 2 * (n % 2 ^ T.sigDiff) = 2 ^ T.sigDiff := by
    rw [← BitVec.toNat_inj, hround, T.halfway_toNat, hpow]
    omega
  unfold truncRound roundShift
  simp only [hgt, heq]
  rcases Nat.lt_trichotomy (2 * (n % 2 ^ T.sigDiff)) (2 ^ T.sigDiff) with h | h | h
  · rw [if_neg (by omega), if_neg (by omega), if_pos h]
    exact habs
  · rw [if_neg (by omega), if_pos h, if_neg (by omega), if_neg (by omega), BitVec.toNat_add, hbit,
      Nat.mod_eq_of_lt (by omega)]
    omega
  · rw [if_pos h, if_neg (by omega), if_pos h, BitVec.toNat_add, hone, Nat.mod_eq_of_lt hfit]
    omega

/-- In the normal range of the destination. -/
theorem truncAbs_normal {a : T.src.Rep}
    (hge : T.underflow.toNat ≤ a.toNat % T.src.format.signBit)
    (hlt : a.toNat % T.src.format.signBit < T.overflow.toNat) :
    ∃ x : T.dst.Rep, truncAbs T a = .ok x ∧ x.toNat ≤ T.dst.format.infPattern ∧
      x.toNat = roundPattern T.dst.sigBits (T.sigDiff + T.biasDiff)
        (magnitude T.src.sigBits (a.toNat % T.src.format.signBit)) := by
  have habs := FloatType.abs_toNat a
  have hinf := Format.infPattern_lt_signBit (f := T.dst.format)
  have hw := T.dst.two_pow_bits
  have htest : (a &&& T.src.absMask) - T.underflow < (a &&& T.src.absMask) - T.overflow := by
    rw [Bits.sub_lt_sub_iff T.underflow_lt_overflow, habs]
    exact ⟨hge, hlt⟩
  rw [T.underflow_toNat, T.src_sigBits] at hge
  rw [T.overflow_toNat, T.src_sigBits] at hlt
  have hround := roundPattern_narrow T.dst.format.significandBits_pos hge
  have hquotient : T.biasDiff * 2 ^ T.dst.sigBits ≤
      a.toNat % T.src.format.signBit / 2 ^ T.sigDiff := by
    rw [Nat.le_div_iff_mul_le (Nat.two_pow_pos _), Nat.mul_assoc, ← Nat.pow_add]
    exact Nat.le_trans (Nat.mul_le_mul_right _ (Nat.le_succ _)) hge
  have hquotientLt : a.toNat % T.src.format.signBit / 2 ^ T.sigDiff <
      T.biasDiff * 2 ^ T.dst.sigBits + T.dst.format.infPattern := by
    rw [Nat.div_lt_iff_lt_mul (Nat.two_pow_pos _), T.dst.format_infPattern, ← Nat.add_mul,
      Nat.mul_assoc, ← Nat.pow_add]
    exact hlt
  -- the words wrap, and their difference does not
  have hdiff := Bits.toNat_sub_of_wrapped
    (x := ((a &&& T.src.absMask) >>> T.sigDiff).setWidth T.dst.bits)
    (y := BitVec.ofNat T.dst.bits T.biasDiff <<< T.dst.sigBits)
    (by rw [BitVec.toNat_setWidth, Bits.toNat_shiftRight, habs])
    (by rw [BitVec.toNat_shiftLeft, Nat.shiftLeft_eq, BitVec.toNat_ofNat, Nat.mod_mul_mod])
    hquotient (by omega)
  have hbits : ((a &&& T.src.absMask) &&& T.roundMask).toNat =
      a.toNat % T.src.format.signBit % 2 ^ T.sigDiff := by
    rw [Bits.toNat_and_lowMask T.roundMask_toNat, habs]
  have hresult := truncRound_toNat (T := T) (c := T.biasDiff * 2 ^ T.dst.sigBits) hbits
    (by rw [hdiff]; omega)
    (by
      obtain ⟨j, hj⟩ := Nat.exists_eq_add_one.2 T.dst.format.significandBits_pos
      rw [show T.dst.sigBits = j + 1 from hj, Nat.pow_succ, ← Nat.mul_assoc, Nat.mul_mod_left])
    (by omega)
  refine ⟨_, by simp only [truncAbs]; rw [if_pos htest]; rfl, ?_, ?_⟩
  · have := roundShift_le (a.toNat % T.src.format.signBit) T.sigDiff
    omega
  · rw [T.src_sigBits]
    exact Nat.add_right_cancel (hresult.trans hround.symm)

/-- Outside the normal range the wrapping test fails. -/
theorem truncAbs_guard {a : T.src.Rep}
    (h : a.toNat % T.src.format.signBit < T.underflow.toNat ∨
      T.overflow.toNat ≤ a.toNat % T.src.format.signBit) :
    ¬ ((a &&& T.src.absMask) - T.underflow < (a &&& T.src.absMask) - T.overflow) := by
  rw [Bits.sub_lt_sub_iff T.underflow_lt_overflow, FloatType.abs_toNat]
  omega

/-- From the overflow threshold on, the nearest pattern is past the infinity. -/
theorem truncAbs_overflow {a : T.src.Rep}
    (hge : T.overflow.toNat ≤ a.toNat % T.src.format.signBit)
    (hlt : a.toNat % T.src.format.signBit ≤ T.src.format.infPattern) :
    truncAbs T a = .ok T.dst.infinity ∧
      T.dst.format.infPattern ≤ roundPattern T.dst.sigBits (T.sigDiff + T.biasDiff)
        (magnitude T.src.sigBits (a.toNat % T.src.format.signBit)) := by
  have habs := FloatType.abs_toNat a
  constructor
  · simp only [truncAbs]
    rw [if_neg (truncAbs_guard (Or.inr hge)),
      if_neg (by rw [gt_iff_lt, BitVec.lt_def, habs, T.src.infinity_toNat]; omega),
      if_pos (by rw [ge_iff_le, BitVec.le_def, habs]; exact hge)]
    rfl
  · have hunder : (T.biasDiff + 1) * 2 ^ T.src.sigBits ≤ a.toNat % T.src.format.signBit := by
      rw [← T.underflow_toNat]
      exact Nat.le_trans (Nat.le_of_lt T.underflow_lt_overflow) hge
    rw [T.src_sigBits] at hunder ⊢
    have hround := roundPattern_narrow (q := T.dst.sigBits) T.dst.format.significandBits_pos hunder
    have hle := le_roundShift (a.toNat % T.src.format.signBit) T.sigDiff
    have hquotient : T.biasDiff * 2 ^ T.dst.sigBits + T.dst.format.infPattern ≤
        a.toNat % T.src.format.signBit / 2 ^ T.sigDiff := by
      rw [Nat.le_div_iff_mul_le (Nat.two_pow_pos _), T.dst.format_infPattern, ← Nat.add_mul,
        Nat.mul_assoc, ← Nat.pow_add, ← T.src_sigBits, ← T.overflow_toNat]
      exact hge
    omega

/-- Below the normal range, and far below it. -/
theorem truncUnderflow_zero {a : T.src.Rep}
    (h : a.toNat % T.src.format.signBit / 2 ^ T.src.sigBits + T.src.sigBits ≤ T.biasDiff) :
    truncUnderflow T a = .ok 0#T.dst.bits ∧
      roundPattern T.dst.sigBits (T.sigDiff + T.biasDiff)
        (magnitude T.src.sigBits (a.toNat % T.src.format.signBit)) = 0 := by
  have habs := FloatType.abs_toNat a
  constructor
  · simp only [truncUnderflow, Bits.toNat_shiftRight, habs]
    rw [if_pos (by omega)]
    rfl
  · refine roundPattern_narrow_zero (by have := T.two_le_sigDiff; omega) ?_
    generalize a.toNat % T.src.format.signBit = m at *
    have hlt : m < m / 2 ^ T.src.sigBits * 2 ^ T.src.sigBits + 2 ^ T.src.sigBits := by
      have hsplit := Nat.div_add_mod' m (2 ^ T.src.sigBits)
      have hmod := Nat.mod_lt m (Nat.two_pow_pos T.src.sigBits)
      omega
    calc magnitude T.src.sigBits m
        < magnitude T.src.sigBits
            (m / 2 ^ T.src.sigBits * 2 ^ T.src.sigBits + 2 ^ T.src.sigBits) :=
          magnitude_strictMono _ hlt
      _ = 2 ^ (T.src.sigBits + m / 2 ^ T.src.sigBits) := by
          rw [magnitude_parts (Or.inr (Nat.le_refl _))
            (Nat.pow_le_pow_right (by decide) (Nat.le_succ _)), Nat.pow_add]
      _ ≤ 2 ^ T.biasDiff := Nat.pow_le_pow_right (by decide) (by omega)

/-- Below the normal range: the significand is shifted with a sticky bit, and
then rounded. -/
theorem truncUnderflow_denormal {a : T.src.Rep} {k : Nat} (hk : k ≤ T.src.sigBits)
    (hpos : 0 < k)
    (he : a.toNat % T.src.format.signBit / 2 ^ T.src.sigBits + k = T.biasDiff + 1) :
    ∃ x : T.dst.Rep, truncUnderflow T a = .ok x ∧ x.toNat ≤ T.dst.format.infPattern ∧
      x.toNat = roundPattern T.dst.sigBits (T.sigDiff + T.biasDiff)
        (magnitude T.src.sigBits (a.toNat % T.src.format.signBit)) := by
  have habs := FloatType.abs_toNat a
  have hbias := T.sigBits_le_biasDiff
  have hbits : T.src.sigBits < T.src.bits := by cases T <;> decide
  have hpow := Nat.two_pow_pos T.src.sigBits
  have hmod := Nat.mod_lt (a.toNat % T.src.format.signBit) hpow
  -- the significand with its implicit bit
  have hfield : (a &&& T.src.significandMask).toNat =
      a.toNat % T.src.format.signBit % 2 ^ T.src.sigBits := by
    rw [Bits.toNat_and_lowMask T.src.significandMask_toNat]
    exact (Nat.mod_mod_of_dvd _ (Nat.pow_dvd_pow 2 (Nat.le_add_right _ _))).symm
  have hsig : (a &&& T.src.significandMask ||| T.src.minNormal).toNat =
      2 ^ T.src.sigBits + a.toNat % T.src.format.signBit % 2 ^ T.src.sigBits := by
    rw [Bits.toNat_or_disjoint (c := 1) (hfield ▸ hmod)
      (by rw [T.src.minNormal_toNat, Nat.one_mul]),
      T.src.minNormal_toNat, hfield, Nat.add_comm]
  have hround := roundPattern_narrow_subnormal (q := T.dst.sigBits) (d := T.sigDiff)
    (B := T.biasDiff) (m := a.toNat % T.src.format.signBit)
    (by rw [← T.src_sigBits]; omega) (by rw [← T.src_sigBits]; omega)
  rw [← T.src_sigBits, ← hsig, show T.biasDiff + 1 -
    a.toNat % T.src.format.signBit / 2 ^ T.src.sigBits = k by omega] at hround
  have hsigLt : (a &&& T.src.significandMask ||| T.src.minNormal).toNat <
      2 ^ (k + T.src.sigBits) := by
    rw [hsig]
    have hle : 2 ^ (1 + T.src.sigBits) ≤ 2 ^ (k + T.src.sigBits) :=
      Nat.pow_le_pow_right (by decide) (by omega)
    rw [Nat.add_comm 1, Nat.pow_succ] at hle
    omega
  have hshift : ∀ i : Int, i = k → shl (a &&& T.src.significandMask ||| T.src.minNormal)
      (T.src.bits - i) = .ok ((a &&& T.src.significandMask ||| T.src.minNormal) <<<
        (T.src.bits - k)) := fun i hi => shl_ok _ (by omega) (by omega)
  have hshift' : ∀ i : Int, i = k → shr (a &&& T.src.significandMask ||| T.src.minNormal) i =
      .ok ((a &&& T.src.significandMask ||| T.src.minNormal) >>> k) :=
    fun i hi => shr_ok _ hi (by omega)
  have hrun : truncUnderflow T a =
      .ok (let s := a &&& T.src.significandMask ||| T.src.minNormal
        let y := s >>> k ||| if decide (s <<< (T.src.bits - k) ≠ 0#T.src.bits)
          then 1#T.src.bits else 0#T.src.bits
        truncRound T ((y >>> T.sigDiff).setWidth T.dst.bits) (y &&& T.roundMask)) := by
    simp only [truncUnderflow, Bits.toNat_shiftRight, habs]
    rw [if_neg (by omega), hshift _ (by omega), ok_bind, hshift' _ (by omega), ok_bind]
    rfl
  dsimp only at hrun
  have hsticky : decide ((a &&& T.src.significandMask ||| T.src.minNormal) <<< (T.src.bits - k) ≠
      0#T.src.bits) = true ↔
        (a &&& T.src.significandMask ||| T.src.minNormal).toNat % 2 ^ k ≠ 0 := by
    rw [decide_eq_true_iff, ne_eq, Bits.shiftLeft_eq_zero_iff (by omega)]
  have hy := Bits.toNat_shiftRight_or_sticky (w := T.src.bits) (by omega) _ hsticky
  generalize a &&& T.src.significandMask ||| T.src.minNormal = s at *
  generalize (s >>> k ||| if decide (s <<< (T.src.bits - k) ≠ 0#T.src.bits)
    then 1#T.src.bits else 0#T.src.bits) = y at *
  have hyLt : y.toNat < 2 ^ T.src.sigBits := by
    rw [hy]
    exact stickyShift_lt (by cases T <;> decide) hsigLt
  have hquotient : y.toNat / 2 ^ T.sigDiff < 2 ^ T.dst.sigBits := by
    rw [Nat.div_lt_iff_lt_mul (Nat.two_pow_pos _), ← Nat.pow_add, ← T.src_sigBits]
    exact hyLt
  have hmin : 2 ^ T.dst.sigBits ≤ T.dst.format.infPattern := by cases T <;> decide
  have hinf := Format.infPattern_lt_signBit (f := T.dst.format)
  have hw := T.dst.two_pow_bits
  have hword : ((y >>> T.sigDiff).setWidth T.dst.bits).toNat = y.toNat / 2 ^ T.sigDiff := by
    rw [BitVec.toNat_setWidth, Bits.toNat_shiftRight, Nat.mod_eq_of_lt (by omega)]
  have hresult := truncRound_toNat (T := T) (n := y.toNat) (c := 0)
    (Bits.toNat_and_lowMask T.roundMask_toNat) (by rw [hword, Nat.add_zero]) rfl (by omega)
  refine ⟨_, hrun, ?_, ?_⟩
  · have := roundShift_le y.toNat T.sigDiff
    omega
  · rw [hround, ← Nat.add_zero (BitVec.toNat _), hresult, hy,
      roundShift_stickyShift _ _ T.two_le_sigDiff]

/-- A finite operand: the nearest pattern, with the infinity as a cap. -/
theorem truncAbs_finite {a : T.src.Rep}
    (hlt : a.toNat % T.src.format.signBit < T.src.format.infPattern) :
    ∃ x : T.dst.Rep, truncAbs T a = .ok x ∧
      x.toNat = min (roundPattern T.dst.sigBits (T.sigDiff + T.biasDiff)
        (magnitude T.src.sigBits (a.toNat % T.src.format.signBit))) T.dst.format.infPattern := by
  have habs := FloatType.abs_toNat a
  rcases Nat.lt_or_ge (a.toNat % T.src.format.signBit) T.overflow.toNat with hover | hover
  · rcases Nat.lt_or_ge (a.toNat % T.src.format.signBit) T.underflow.toNat with hunder | hunder
    · have hbranch : truncAbs T a = truncUnderflow T a := by
        simp only [truncAbs]
        rw [if_neg (truncAbs_guard (Or.inl hunder)),
          if_neg (by rw [gt_iff_lt, BitVec.lt_def, habs, T.src.infinity_toNat]; omega),
          if_neg (by rw [ge_iff_le, BitVec.le_def, habs]; omega)]
      have hexp : a.toNat % T.src.format.signBit / 2 ^ T.src.sigBits ≤ T.biasDiff := by
        rw [T.underflow_toNat, ← Nat.div_lt_iff_lt_mul (Nat.two_pow_pos _)] at hunder
        omega
      rw [hbranch]
      by_cases hfar : a.toNat % T.src.format.signBit / 2 ^ T.src.sigBits + T.src.sigBits ≤
          T.biasDiff
      · obtain ⟨hrun, hzero⟩ := truncUnderflow_zero hfar
        exact ⟨_, hrun, by rw [hzero, Nat.zero_min, BitVec.toNat_zero]⟩
      · obtain ⟨k, hk⟩ := Nat.exists_eq_add_of_le (Nat.le_succ_of_le hexp)
        obtain ⟨x, hrun, hle, hx⟩ := truncUnderflow_denormal (a := a) (k := k) (by omega) (by omega)
          (by omega)
        exact ⟨x, hrun, by rw [← hx, Nat.min_eq_left hle]⟩
    · obtain ⟨x, hrun, hle, hx⟩ := truncAbs_normal hunder hover
      exact ⟨x, hrun, by rw [← hx, Nat.min_eq_left hle]⟩
  · obtain ⟨hrun, hle⟩ := truncAbs_overflow hover (Nat.le_of_lt hlt)
    exact ⟨_, hrun, by rw [Nat.min_eq_right hle, T.dst.infinity_toNat]⟩

/-- A NaN is made quiet, and its payload is truncated. -/
theorem truncAbs_nan {a : T.src.Rep}
    (h : T.src.format.infPattern < a.toNat % T.src.format.signBit) :
    ∃ x : T.dst.Rep, truncAbs T a = .ok x ∧ x.toNat < T.dst.format.signBit ∧
      x.toNat = T.dst.format.infPattern + 2 ^ (T.dst.sigBits - 1) +
        a.toNat % T.src.format.signBit % 2 ^ (T.src.sigBits - 1) / 2 ^ T.sigDiff := by
  have habs := FloatType.abs_toNat a
  have hsigBits := T.src_sigBits
  have hdst : 1 ≤ T.dst.sigBits := T.dst.format.significandBits_pos
  have hpow : 2 ^ T.dst.sigBits = 2 * 2 ^ (T.dst.sigBits - 1) := by
    rw [← Nat.pow_succ', Nat.succ_eq_add_one, Nat.sub_add_cancel hdst]
  have hend : T.dst.format.signBit = T.dst.format.infPattern + 2 ^ T.dst.sigBits := by
    cases T <;> rfl
  have hpayload : a.toNat % T.src.format.signBit % 2 ^ (T.src.sigBits - 1) / 2 ^ T.sigDiff <
      2 ^ (T.dst.sigBits - 1) := by
    rw [Nat.div_lt_iff_lt_mul (Nat.two_pow_pos _), ← Nat.pow_add,
      show T.dst.sigBits - 1 + T.sigDiff = T.src.sigBits - 1 by omega]
    exact Nat.mod_lt _ (Nat.two_pow_pos _)
  have hword : (((a &&& T.src.absMask &&& T.src.nanCode) >>> T.sigDiff).setWidth T.dst.bits &&&
      T.dst.nanCode).toNat =
        a.toNat % T.src.format.signBit % 2 ^ (T.src.sigBits - 1) / 2 ^ T.sigDiff := by
    have hw := T.dst.two_pow_bits
    rw [Bits.toNat_and_lowMask T.dst.nanCode_toNat, BitVec.toNat_setWidth, Bits.toNat_shiftRight,
      Bits.toNat_and_lowMask T.src.nanCode_toNat, habs, Nat.mod_eq_of_lt (b := 2 ^ T.dst.bits)
        (by omega), Nat.mod_eq_of_lt hpayload]
  have hquiet : (T.dst.infinity ||| T.dst.qNaN).toNat =
      T.dst.format.infPattern + 2 ^ (T.dst.sigBits - 1) := by
    cases T <;> rfl
  have hlead : T.dst.format.infPattern + 2 ^ (T.dst.sigBits - 1) =
      (2 * T.dst.infExp + 1) * 2 ^ (T.dst.sigBits - 1) := by
    rw [T.dst.format_infPattern, hpow]
    ring
  have hover := T.overflow_le
  refine ⟨T.dst.infinity ||| T.dst.qNaN |||
    ((a &&& T.src.absMask &&& T.src.nanCode) >>> T.sigDiff).setWidth T.dst.bits &&& T.dst.nanCode,
    ?_, ?_, ?_⟩
  · simp only [truncAbs]
    rw [if_neg (truncAbs_guard (Or.inr (by omega))),
      if_pos (by rw [gt_iff_lt, BitVec.lt_def, habs, T.src.infinity_toNat]; exact h)]
    rfl
  · rw [BitVec.or_comm, Bits.toNat_or_disjoint (hword ▸ hpayload) (hquiet.trans hlead), hword,
      hquiet]
    omega
  · rw [BitVec.or_comm, Bits.toNat_or_disjoint (hword ▸ hpayload) (hquiet.trans hlead), hword,
      hquiet, Nat.add_comm]

/-- The sign bit is moved down, and the pattern is as computed. -/
theorem truncXfYf2_ok (a : T.src.Rep) {x : T.dst.Rep} (hx : truncAbs T a = .ok x)
    (hlt : x.toNat < T.dst.format.signBit) :
    ∃ r : T.dst.Rep, truncXfYf2 T a = .ok r ∧
      r.toNat = (if T.src.format.signBit ≤ a.toNat then T.dst.format.signBit else 0) + x.toNat := by
  have hsign : ((a &&& T.src.signMask) >>> (T.src.bits - T.dst.bits)).setWidth T.dst.bits =
      if T.src.format.signBit ≤ a.toNat then T.dst.signMask else 0#T.dst.bits := by
    rw [FloatType.and_signMask]
    by_cases h : T.src.format.signBit ≤ a.toNat
    · rw [if_pos h, if_pos h]
      cases T <;> rfl
    · rw [if_neg h, if_neg h]
      cases T <;> rfl
  refine ⟨x ||| if T.src.format.signBit ≤ a.toNat then T.dst.signMask else 0#T.dst.bits, ?_, ?_⟩
  · rw [truncXfYf2, hx, ok_bind, hsign]
    rfl
  · exact FloatType.or_sign_toNat _ hlt

/-- A truncation runs without a fault, and delivers the operand in the narrower
format. -/
theorem truncXfYf2_delivers (T : Truncation) (a : T.src.Rep) :
    ∃ r : T.dst.Rep, truncXfYf2 T a = .ok r ∧
      T.dst.format.Delivers (T.src.format.datum a.toNat).convert r.toNat := by
  have hinf := Format.infPattern_lt_signBit (f := T.dst.format)
  rcases Format.word_cases (FloatType.toNat_lt a) with h | h | h
  · obtain ⟨x, hx, hlt, hxNat⟩ := truncAbs_nan h
    obtain ⟨r, hr, hrNat⟩ := truncXfYf2_ok a hx hlt
    refine ⟨r, hr, ?_⟩
    rw [Format.datum_nan h, Datum.convert]
    refine ⟨FloatType.toNat_lt r, ?_⟩
    have hpattern : r.toNat % T.dst.format.signBit = x.toNat := by
      rw [hrNat]
      split_ifs
      · rw [Nat.add_mod_left, Nat.mod_eq_of_lt hlt]
      · rw [Nat.zero_add, Nat.mod_eq_of_lt hlt]
    rw [hpattern, hxNat]
    exact Nat.le_add_right _ _
  · obtain ⟨hx, -⟩ := truncAbs_overflow (T := T) (a := a) (h ▸ T.overflow_le) (Nat.le_of_eq h)
    obtain ⟨r, hr, hrNat⟩ := truncXfYf2_ok a hx (by rw [T.dst.infinity_toNat]; exact hinf)
    refine ⟨r, hr, ?_⟩
    rw [Format.datum_inf h, Datum.convert]
    show r.toNat = T.dst.format.pack _ _
    rw [hrNat, T.dst.infinity_toNat, Format.pack, Nat.min_self]
    simp only [decide_eq_true_iff]
  · obtain ⟨x, hx, hxNat⟩ := truncAbs_finite h.2
    obtain ⟨r, hr, hrNat⟩ := truncXfYf2_ok a hx (by omega)
    have hpack : r.toNat = T.dst.format.pack (decide (T.src.format.signBit ≤ a.toNat))
        (roundPattern T.dst.sigBits (T.sigDiff + T.biasDiff)
          (magnitude T.src.sigBits (a.toNat % T.src.format.signBit))) := by
      rw [hrNat, hxNat, Format.pack]
      simp only [decide_eq_true_iff]
    refine ⟨r, hr, ?_⟩
    rw [Format.datum_finite h, Datum.convert]
    by_cases hzero : T.src.format.value a.toNat = 0
    · rw [Format.value_eq_zero_iff, Format.units_eq_zero_iff] at hzero
      rw [hzero, magnitude_zero, roundPattern_zero] at hpack
      rw [if_pos (Format.value_eq_zero_iff.2 (Format.units_eq_zero_iff.2 hzero))]
      exact hpack
    · rw [if_neg hzero, hpack]
      exact T.widens.roundsTo a.toNat (mt Format.value_eq_zero_iff.2 hzero)

end Trunc

/-! ## Round trips -/

/-- The word with the quiet bit set, if it is a NaN. -/
def quieted {F : FloatType} (a : F.Rep) : F.Rep :=
  if a &&& F.absMask > F.infinity then a ||| F.qNaN else a

section RoundTrip

variable {E : Extension} {T : Truncation}

/-- The quiet NaN in parts: the sign, the infinity, the quiet bit and the rest of
the payload. -/
theorem quieted_nan_toNat {F : FloatType} {a : F.Rep}
    (h : F.format.infPattern < a.toNat % F.format.signBit) :
    (quieted a).toNat = (if F.format.signBit ≤ a.toNat then F.format.signBit else 0) +
      (F.format.infPattern + 2 ^ (F.sigBits - 1) +
        (a.toNat % F.format.signBit - F.format.infPattern) % 2 ^ (F.sigBits - 1)) := by
  have hlt := FloatType.toNat_lt a
  have hmod := Nat.mod_lt a.toNat (show 0 < F.format.signBit from Nat.two_pow_pos _)
  have hend : F.format.signBit = (F.infExp + 1) * 2 ^ F.sigBits := by cases F <;> rfl
  have hpow : 2 ^ F.sigBits = 2 * 2 ^ (F.sigBits - 1) := by cases F <;> rfl
  obtain ⟨y, hy⟩ := Nat.exists_eq_add_of_le (Nat.le_of_lt h)
  have hylt : y < 2 ^ F.sigBits := by
    rw [hy, hend, F.format_infPattern, Nat.add_mul] at hmod
    omega
  -- the fields above the payload
  obtain ⟨c, hc⟩ : ∃ c, (if F.format.signBit ≤ a.toNat then F.format.signBit else 0) +
      F.format.infPattern = c * 2 ^ F.sigBits := by
    by_cases hsign : F.format.signBit ≤ a.toNat
    · refine ⟨F.infExp + 1 + F.infExp, ?_⟩
      rw [if_pos hsign, hend, F.format_infPattern, Nat.add_mul (F.infExp + 1)]
    · exact ⟨F.infExp, by rw [if_neg hsign, Nat.zero_add, F.format_infPattern]⟩
  have hword : a.toNat = c * 2 ^ F.sigBits + y := by
    rw [← hc, Nat.add_assoc, ← hy]
    split_ifs with hsign
    · rw [Nat.mod_eq_sub_mod hsign, Nat.mod_eq_of_lt (by omega)]
      omega
    · rw [Nat.mod_eq_of_lt (by omega), Nat.zero_add]
  have hdiv : a.toNat / 2 ^ (F.sigBits - 1) / 2 = c := by
    rw [Nat.div_div_eq_div_mul, Nat.mul_comm _ 2, ← hpow, hword, Nat.mul_comm,
      Nat.mul_add_div (Nat.two_pow_pos _), Nat.div_eq_of_lt hylt, Nat.add_zero]
  have hrest : a.toNat % 2 ^ (F.sigBits - 1) = y % 2 ^ (F.sigBits - 1) := by
    rw [hword, hpow, ← Nat.mul_assoc, Nat.mul_comm, Nat.mul_add_mod]
  have hquieted : quieted a = a ||| F.qNaN :=
    if_pos (by rw [gt_iff_lt, BitVec.lt_def, FloatType.abs_toNat, F.infinity_toNat]; exact h)
  rw [hquieted, BitVec.toNat_or, F.qNaN_toNat, Bits.or_two_pow_eq, hdiv, hrest, hy,
    Nat.add_sub_cancel_left, ← Nat.add_assoc, ← Nat.add_assoc, hc, hpow]
  ring

theorem quieted_of_le {F : FloatType} {a : F.Rep}
    (h : a.toNat % F.format.signBit ≤ F.format.infPattern) : quieted a = a :=
  if_neg (by rw [gt_iff_lt, BitVec.lt_def, FloatType.abs_toNat, F.infinity_toNat]; omega)

/-- The truncation of an extended NaN. -/
theorem truncXfYf2_extended_nan (hsrc : T.src = E.dst) (hdst : T.dst = E.src) {a : E.src.Rep}
    (hnan : E.src.format.infPattern < a.toNat % E.src.format.signBit) {b : T.src.Rep}
    {r : E.dst.Rep} (hr : extendXfYf2 E a = .ok r) (hb : b.toNat = r.toNat) :
    ∃ c : T.dst.Rep, truncXfYf2 T b = .ok c ∧ c.toNat = (quieted a).toNat := by
  have hformat : T.src.format = E.dst.format := congrArg FloatType.format hsrc
  have hformat' : T.dst.format = E.src.format := congrArg FloatType.format hdst
  have hbits : T.src.sigBits = E.dst.sigBits := congrArg FloatType.sigBits hsrc
  have hbits' : T.dst.sigBits = E.src.sigBits := congrArg FloatType.sigBits hdst
  have hdiff : T.sigDiff = E.sigDiff := by
    rw [Truncation.sigDiff, Extension.sigDiff, hbits, hbits']
  have habs := FloatType.abs_toNat a
  have hlt := Nat.mod_lt a.toNat (show 0 < E.src.format.signBit from Nat.two_pow_pos _)
  obtain ⟨x, hx, hxNat⟩ := extendAbs_special (x := a &&& E.src.absMask)
    (by rw [habs]; omega) (by rw [habs]; exact hlt)
  rw [habs] at hxNat
  obtain ⟨r', hr', hpattern, hsign⟩ := extendXfYf2_ok a hx (extendAbs_special_lt hlt hxNat)
  obtain rfl : r' = r := Except.ok.inj (hr'.symm.trans hr)
  have hpayload : 0 < (a.toNat % E.src.format.signBit - E.src.format.infPattern) * 2 ^ E.sigDiff :=
    Nat.mul_pos (by omega) (Nat.two_pow_pos _)
  obtain ⟨y, hy, hylt, hyNat⟩ := truncAbs_nan (T := T) (a := b)
    (by rw [hformat, hb, hpattern, hxNat]; omega)
  obtain ⟨c, hc, hcNat⟩ := truncXfYf2_ok b hy hylt
  refine ⟨c, hc, ?_⟩
  -- the payload of the extended NaN is a multiple of the bits that are cut off
  have hrest : b.toNat % T.src.format.signBit % 2 ^ (T.src.sigBits - 1) / 2 ^ T.sigDiff =
      (a.toNat % E.src.format.signBit - E.src.format.infPattern) % 2 ^ (E.src.sigBits - 1) := by
    have hsplit : E.dst.sigBits - 1 = E.src.sigBits - 1 + E.sigDiff := by
      have := E.dst_sigBits
      have : 1 ≤ E.src.sigBits := E.src.format.significandBits_pos
      omega
    have hinf : E.dst.format.infPattern = 2 * E.dst.infExp * 2 ^ (E.dst.sigBits - 1) := by
      cases E <;> rfl
    rw [hformat, hb, hpattern, hxNat, hbits, hdiff, hinf, Nat.mul_comm, Nat.mul_add_mod, hsplit,
      Nat.pow_add, Nat.mul_mod_mul_right, Nat.mul_div_cancel _ (Nat.two_pow_pos _)]
  rw [quieted_nan_toNat hnan, hcNat, hyNat, hrest, hformat, hformat', hbits', hb]
  simp only [hsign]

theorem datum_ne_nan {F : FloatType} {a : F.Rep}
    (ha : a.toNat % F.format.signBit ≤ F.format.infPattern) : F.format.datum a.toNat ≠ .nan := by
  intro h
  rw [Format.datum, if_neg (by omega)] at h
  split_ifs at h

/-- The truncation of an extension, for any pair of conversions that fit. -/
theorem truncXfYf2_extendXfYf2 (hsrc : T.src = E.dst) (hdst : T.dst = E.src) (a : E.src.Rep)
    {b : T.src.Rep} {r : E.dst.Rep} (hr : extendXfYf2 E a = .ok r) (hb : b.toNat = r.toNat) :
    ∃ c : T.dst.Rep, truncXfYf2 T b = .ok c ∧ c.toNat = (quieted a).toNat := by
  rcases Nat.lt_or_ge E.src.format.infPattern (a.toNat % E.src.format.signBit) with hnan | hle
  · exact truncXfYf2_extended_nan hsrc hdst hnan hr hb
  · have hformat : T.src.format = E.dst.format := congrArg FloatType.format hsrc
    have hformat' : T.dst.format = E.src.format := congrArg FloatType.format hdst
    obtain ⟨r', hr', hdatum, -⟩ := extendXfYf2_datum E a
    obtain rfl : r' = r := Except.ok.inj (hr'.symm.trans hr)
    obtain ⟨c, hc, hdelivers⟩ := truncXfYf2_delivers T b
    rw [hformat, hb, hdatum, hformat'] at hdelivers
    have hnan := datum_ne_nan hle
    refine ⟨c, hc, ?_⟩
    rw [quieted_of_le hle]
    exact hdelivers.unique (Format.delivers_convert (FloatType.toNat_lt a) hnan)
      (Datum.convert_ne_nan hnan)

end RoundTrip

/-- A truncation undoes the extension before it, up to the quiet bit of a
NaN. -/
theorem trunc_extend :
    (∀ a : BitVec 16, extendhfsf2 a >>= truncsfhf2 = .ok (quieted (F := .half) a)) ∧
      ∀ a : BitVec 32, extendsfdf2 a >>= truncdfsf2 = .ok (quieted (F := .single) a) := by
  constructor
  · intro a
    obtain ⟨r, hr⟩ : ∃ r : BitVec 32, extendhfsf2 a = .ok r :=
      (extendXfYf2_datum .hfsf2 a).imp fun _ h => h.1
    obtain ⟨c, hc, hcNat⟩ := truncXfYf2_extendXfYf2 (E := .hfsf2) (T := .sfhf2) rfl rfl a hr rfl
    rw [hr, ok_bind]
    exact hc.trans (congrArg _ (BitVec.eq_of_toNat_eq hcNat))
  · intro a
    obtain ⟨r, hr⟩ : ∃ r : BitVec 64, extendsfdf2 a = .ok r :=
      (extendXfYf2_datum .sfdf2 a).imp fun _ h => h.1
    obtain ⟨c, hc, hcNat⟩ := truncXfYf2_extendXfYf2 (E := .sfdf2) (T := .dfsf2) rfl rfl a hr rfl
    rw [hr, ok_bind]
    exact hc.trans (congrArg _ (BitVec.eq_of_toNat_eq hcNat))

/-- Every conversion between the formats runs without a fault.  The extensions keep
what the word stands for, and the truncations round it. -/
theorem extend_trunc_deliver :
    (∀ (E : Extension) (a : E.src.Rep), ∃ r : E.dst.Rep, extendXfYf2 E a = .ok r ∧
      E.dst.format.datum r.toNat = E.src.format.datum a.toNat ∧
      (E.dst.format.signBit ≤ r.toNat ↔ E.src.format.signBit ≤ a.toNat)) ∧
    ∀ (T : Truncation) (a : T.src.Rep), ∃ r : T.dst.Rep, truncXfYf2 T a = .ok r ∧
      T.dst.format.Delivers (T.src.format.datum a.toNat).convert r.toNat :=
  ⟨extendXfYf2_datum, truncXfYf2_delivers⟩

/-- A number in single precision becomes the same half precision number directly
and through double precision.  The extension is exact, so nothing is rounded
twice. -/
theorem truncdfhf2_extendsfdf2 {a : BitVec 32}
    (ha : a.toNat % FloatType.single.format.signBit ≤ FloatType.single.format.infPattern) :
    ∃ r, extendsfdf2 a >>= truncdfhf2 = .ok r ∧ truncsfhf2 a = .ok r ∧
      FloatType.half.format.Delivers (FloatType.single.format.datum a.toNat).convert r.toNat := by
  have hnan := datum_ne_nan (F := .single) ha
  obtain ⟨b, hb, hdatum, -⟩ := extendXfYf2_datum .sfdf2 a
  obtain ⟨c, hc, hdelivers⟩ := truncXfYf2_delivers .dfhf2 b
  obtain ⟨d, hd, hdelivers'⟩ := truncXfYf2_delivers .sfhf2 a
  have hsame : FloatType.double.format.datum b.toNat = FloatType.single.format.datum a.toNat :=
    hdatum
  have hcd : c.toNat = d.toNat := by
    change FloatType.half.format.Delivers (FloatType.double.format.datum b.toNat).convert
      c.toNat at hdelivers
    rw [hsame] at hdelivers
    exact hdelivers.unique hdelivers' (Datum.convert_ne_nan hnan)
  refine ⟨d, ?_, hd, hdelivers'⟩
  calc extendsfdf2 a >>= truncdfhf2
      = .ok b >>= truncdfhf2 := congrArg (· >>= truncdfhf2) hb
    _ = .ok c := hc
    _ = .ok d := congrArg _ (BitVec.eq_of_toNat_eq hcd)

/-- The number after `1 + 2⁻¹¹`, which is half way between two half precision
numbers. -/
theorem truncdfhf2_extendsfdf2_halfway :
    (0x3F801001#32).toNat % FloatType.single.format.signBit ≤
      FloatType.single.format.infPattern ∧
    ∃ r, extendsfdf2 0x3F801001#32 >>= truncdfhf2 = .ok r ∧ truncsfhf2 0x3F801001#32 = .ok r ∧
      FloatType.half.format.Delivers
        (FloatType.single.format.datum (0x3F801001#32).toNat).convert r.toNat :=
  ⟨by decide, truncdfhf2_extendsfdf2 (by decide)⟩

end Cheesecloth.Builtins.SoftFloat
