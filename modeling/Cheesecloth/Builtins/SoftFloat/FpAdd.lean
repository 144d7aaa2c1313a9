import Cheesecloth.Builtins.SoftFloat.FpLib

/-!
# The model of `fp_add_impl.inc`

`__addXf3__` adds two floating-point numbers with integer operations.  The
model keeps its order: the special operands, the swap, the significands with
three guard bits, the alignment, the sum or the difference, the overflow, the
denormal result and the rounding.

`addXf3_ok` is the result: for finite operands no shift is out of range, and
the answer is the exact sum, rounded once.  It is assembled from one lemma for
each stage: `unpack_ok`, `alignSignificand_ok`, `addSignificands_ok`,
`subtractSignificands_ok` and `roundAndPack_ok`.
-/

namespace Cheesecloth.Builtins.SoftFloat

open CodeLib CodeLib.Checked

variable {P : Precision}

/-! ## The routine -/

/-- The branch for zero, infinite and NaN operands.  `none` is the fall
through to the general case. -/
def addSpecialOperands (a b : P.Rep) : Option P.Rep :=
  let aAbs := a &&& P.absMask
  let bAbs := b &&& P.absMask
  if aAbs - 1#P.typeWidth ≥ P.infRep - 1#P.typeWidth ∨
      bAbs - 1#P.typeWidth ≥ P.infRep - 1#P.typeWidth then
    if aAbs > P.infRep then some (a ||| P.quietBit)
    else if bAbs > P.infRep then some (b ||| P.quietBit)
    else if aAbs = P.infRep then
      if a ^^^ b = P.signBit then some P.qnanRep else some a
    else if bAbs = P.infRep then some b
    else if aAbs = 0#P.typeWidth then
      if bAbs = 0#P.typeWidth then some (a &&& b) else some b
    else if bAbs = 0#P.typeWidth then some a
    else none
  else none

/-- The exponent and the significand of an operand.  Denormals are
normalised. -/
def unpack (rep : P.Rep) : Checked (Int × P.Rep) := do
  let exponent := (exponentField rep).toNat
  let significand := rep &&& P.significandMask
  if exponent = 0 then
    let (significand, exponent) ← normalize significand
    return (exponent, significand)
  else
    return (exponent, significand)

/-- `bSignificand`, shifted by the difference in exponents. -/
def alignSignificand (bSignificand : P.Rep) (align : Nat) : Checked P.Rep :=
  if align ≠ 0 then
    if align < P.typeWidth then shiftRightSticky bSignificand align
    else return 1#P.typeWidth
  else
    return bSignificand

/-- The branch for operands of opposite signs.  `none` is a zero result. -/
def subtractSignificands (aExponent : Int) (aSignificand bSignificand : P.Rep) :
    Checked (Option (Int × P.Rep)) :=
  let aSignificand := aSignificand - bSignificand
  if aSignificand = 0#P.typeWidth then
    return none
  else if aSignificand < P.implicitBit <<< 3 then do
    let shift := (← repClz aSignificand) - (← repClz (P.implicitBit <<< 3))
    return some (aExponent - shift, ← shl aSignificand shift)
  else
    return some (aExponent, aSignificand)

/-- The branch for operands of the same sign. -/
def addSignificands (aExponent : Int) (aSignificand bSignificand : P.Rep) : Int × P.Rep :=
  let aSignificand := aSignificand + bSignificand
  if aSignificand &&& P.implicitBit <<< 4 ≠ 0#P.typeWidth then
    let sticky := decide (aSignificand &&& 1#P.typeWidth ≠ 0#P.typeWidth)
    (aExponent + 1, aSignificand >>> 1 ||| if sticky then 1#P.typeWidth else 0#P.typeWidth)
  else
    (aExponent, aSignificand)

/-- The final rounding of `result`, by rounding mode. -/
def roundResult (mode : RoundMode) (resultSign roundGuardSticky result : P.Rep) : P.Rep :=
  match mode with
  | .toNearest =>
    let result := if roundGuardSticky > 4#P.typeWidth then result + 1#P.typeWidth else result
    if roundGuardSticky = 4#P.typeWidth then result + (result &&& 1#P.typeWidth) else result
  | .downward =>
    if resultSign ≠ 0#P.typeWidth ∧ roundGuardSticky ≠ 0#P.typeWidth then
      result + 1#P.typeWidth
    else result
  | .upward =>
    if resultSign = 0#P.typeWidth ∧ roundGuardSticky ≠ 0#P.typeWidth then
      result + 1#P.typeWidth
    else result
  | .towardZero => result

/-- The fields of the result, rounded. -/
def packRounded (resultSign : P.Rep) (aExponent : Int) (aSignificand : P.Rep) : P.Rep :=
  let roundGuardSticky := aSignificand &&& 0x7#P.typeWidth
  let result := aSignificand >>> 3 &&& P.significandMask
  let result := result ||| BitVec.ofInt P.typeWidth aExponent <<< P.significandBits
  let result := result ||| resultSign
  roundResult feGetround resultSign roundGuardSticky result

/-- The end of the routine, from the overflow test on. -/
def roundAndPack (resultSign : P.Rep) (aExponent : Int) (aSignificand : P.Rep) :
    Checked P.Rep :=
  if aExponent ≥ P.maxExponent then
    return P.infRep ||| resultSign
  else if aExponent ≤ 0 then do
    -- the result is denormal before rounding
    let aSignificand ← shiftRightSticky aSignificand (1 - aExponent)
    return packRounded resultSign 0 aSignificand
  else
    return packRounded resultSign aExponent aSignificand

/-- The general case, for operands in order of their absolute values. -/
def addOrdered (aRep bRep : P.Rep) : Checked P.Rep := do
  let (aExponent, aSignificand) ← unpack aRep
  let (bExponent, bSignificand) ← unpack bRep
  let resultSign := aRep &&& P.signBit
  let subtraction := (aRep ^^^ bRep) &&& P.signBit ≠ 0#P.typeWidth
  let aSignificand := (aSignificand ||| P.implicitBit) <<< 3
  let bSignificand := (bSignificand ||| P.implicitBit) <<< 3
  -- `const unsigned int align`
  let align := ((aExponent - bExponent) % 2 ^ 32).toNat
  let bSignificand ← alignSignificand bSignificand align
  if subtraction then
    match ← subtractSignificands aExponent aSignificand bSignificand with
    | none => return 0#P.typeWidth
    | some (aExponent, aSignificand) => roundAndPack resultSign aExponent aSignificand
  else
    let (aExponent, aSignificand) := addSignificands aExponent aSignificand bSignificand
    roundAndPack resultSign aExponent aSignificand

/-- `__addXf3__`. -/
def addXf3 (a b : P.Rep) : Checked P.Rep :=
  match addSpecialOperands a b with
  | some result => return result
  | none =>
    if b &&& P.absMask > a &&& P.absMask then addOrdered b a else addOrdered a b

/-- The subtraction of `subdf3.c` and `subsf3.c`. -/
def subXf3 (a b : P.Rep) : Checked P.Rep := addXf3 a (b ^^^ P.signBit)

/-! ## Operands -/

theorem unpack_ok {rep : P.Rep} (h : IsNonzeroFinite rep) :
    ∃ (s : P.Rep) (t : Nat), unpack rep = .ok ((t : Int) + 1 - P.significandBits, s) ∧
      Unpacked P.significandBits (rep.toNat % P.format.signBit) (s ||| P.implicitBit).toNat t ∧
      t + 1 < P.maxExponent + P.significandBits := by
  have hmax := P.maxExponent_bounds
  unfold unpack
  rcases operand_cases h with ⟨hzero, s, t, hs, hunpacked, ht⟩ | ⟨hpos, hlt, hunpacked⟩
  · refine ⟨s, t, ?_, hunpacked, by omega⟩
    rw [if_pos hzero, hs]
    rfl
  · refine ⟨rep &&& P.significandMask, (exponentField rep).toNat - 1 + P.significandBits, ?_,
      hunpacked, by omega⟩
    rw [if_neg (Nat.ne_of_gt hpos)]
    simp only [pure_eq_ok, Except.ok.injEq, Prod.mk.injEq, and_true]
    omega

theorem alignSignificand_ok {x : P.Rep} (hx : 0 < x.toNat) (k : Nat) :
    ∃ r : P.Rep, alignSignificand x k = .ok r ∧ r.toNat = stickyShift x.toNat k := by
  unfold alignSignificand
  split_ifs with h0 hk
  · exact shiftRightSticky_ok x rfl (by omega) hk
  · refine ⟨1#P.typeWidth, rfl, ?_⟩
    have hsmall : x.toNat < 2 ^ k :=
      Nat.lt_of_lt_of_le x.isLt (Nat.pow_le_pow_right (by decide) (by omega))
    rw [stickyShift, Nat.mod_eq_of_lt hsmall, if_neg (by omega), Nat.div_eq_of_lt hsmall]
    cases P <;> rfl
  · obtain rfl : k = 0 := by omega
    exact ⟨x, rfl, (stickyShift_zero _).symm⟩

/-! ## The sum and the difference -/

/-- The significand with three guard bits. -/
theorem guard_toNat {s : P.Rep} (h : s.toNat < 2 ^ (P.significandBits + 1)) :
    (s <<< 3).toNat = 8 * s.toNat := by
  have hw := P.typeWidth_eq
  have he := P.exponentBits_bounds
  have hle : 2 ^ (P.significandBits + 1) * 2 ^ 3 ≤ 2 ^ P.typeWidth := by
    rw [← Nat.pow_add]
    exact Nat.pow_le_pow_right (by decide) (by omega)
  rw [Bits.toNat_shiftLeft_of_lt (by omega)]
  omega

theorem implicitBit_shiftLeft_toNat {k : Nat} (hk : k ≤ 4) :
    (P.implicitBit <<< k).toNat = 2 ^ (P.significandBits + k) := by
  have hw := P.typeWidth_eq
  have he := P.exponentBits_bounds
  rw [Bits.toNat_shiftLeft_of_lt, P.implicitBit_toNat, ← Nat.pow_add]
  rw [P.implicitBit_toNat, ← Nat.pow_add]
  exact Nat.pow_lt_pow_right (by decide) (by omega)

theorem addSignificands_ok {ma sa ta mb sb tb : Nat} {x y : P.Rep}
    (ha : Unpacked P.significandBits ma sa ta) (hb : Unpacked P.significandBits mb sb tb)
    (hle : tb ≤ ta) (hx : x.toNat = 8 * sa) (hy : y.toNat = stickyShift (8 * sb) (ta - tb)) :
    ∃ (s : P.Rep) (t : Nat),
      addSignificands ((ta : Int) + 1 - P.significandBits) x y =
        ((t : Int) + 1 - P.significandBits, s) ∧
      Normalised P.significandBits 3 s.toNat
        ((magnitude P.significandBits ma + magnitude P.significandBits mb) *
          2 ^ (P.significandBits + 3)) t := by
  have hw := P.typeWidth_eq
  have he := P.exponentBits_bounds
  have hlt := alignedSum_lt ha hb
  have hsum : (x + y).toNat = alignedSum sa sb (ta - tb) := by
    rw [BitVec.toNat_add, hx, hy]
    exact Nat.mod_eq_of_lt (Nat.lt_of_lt_of_le hlt (Nat.pow_le_pow_right (by decide) (by omega)))
  have hcarry : x + y &&& P.implicitBit <<< 4 = 0#P.typeWidth ↔
      alignedSum sa sb (ta - tb) < 2 ^ (P.significandBits + 4) := by
    rw [Bits.and_singleBit_eq_zero_iff (implicitBit_shiftLeft_toNat (Nat.le_refl 4)), hsum]
    rw [show P.significandBits + 5 = P.significandBits + 4 + 1 by omega, Nat.pow_succ] at hlt
    constructor
    · intro h
      by_contra hge
      rw [Nat.div_eq_of_lt_le (k := 1) (by omega) (by omega)] at h
      omega
    · intro h
      rw [Nat.div_eq_of_lt h]
  unfold addSignificands
  dsimp only
  rcases Nat.lt_or_ge (alignedSum sa sb (ta - tb)) (2 ^ (P.significandBits + 4)) with h | h
  · refine ⟨x + y, ta, ?_, ?_⟩
    · rw [if_neg (not_not.2 (hcarry.2 h))]
    · rw [hsum]
      exact alignedSum_normalised ha hb hle h
  · refine ⟨(x + y) >>> 1 ||| if decide ((x + y) &&& 1#P.typeWidth ≠ 0#P.typeWidth)
      then 1#P.typeWidth else 0#P.typeWidth, ta + 1, ?_, ?_⟩
    · rw [if_pos (fun h0 => Nat.not_lt.2 h (hcarry.1 h0))]
      simp only [Prod.mk.injEq, and_true]
      push_cast
      ring
    · have hone : (1#P.typeWidth).toNat = 2 ^ 0 := by cases P <;> rfl
      have hsticky : ((x + y) >>> 1 ||| if decide ((x + y) &&& 1#P.typeWidth ≠ 0#P.typeWidth)
          then 1#P.typeWidth else 0#P.typeWidth).toNat =
            stickyShift (alignedSum sa sb (ta - tb)) 1 := by
        rw [← hsum]
        apply Bits.toNat_shiftRight_or_sticky P.typeWidth_pos
        rw [decide_eq_true_iff, ne_eq, Bits.and_singleBit_eq_zero_iff hone, Nat.pow_zero,
          Nat.div_one, Nat.pow_one]
      rw [hsticky]
      exact alignedSum_carry ha hb hle h

/-- The difference of the significands, which is zero only for operands of
equal magnitude. -/
theorem subtractSignificands_ok {ma sa ta mb sb tb : Nat} {x y : P.Rep}
    (ha : Unpacked P.significandBits ma sa ta) (hb : Unpacked P.significandBits mb sb tb)
    (hle : mb ≤ ma) (hx : x.toNat = 8 * sa) (hy : y.toNat = stickyShift (8 * sb) (ta - tb)) :
    (subtractSignificands ((ta : Int) + 1 - P.significandBits) x y = .ok none ∧
        magnitude P.significandBits ma = magnitude P.significandBits mb) ∨
      ∃ (s : P.Rep) (t : Nat),
        subtractSignificands ((ta : Int) + 1 - P.significandBits) x y =
          .ok (some ((t : Int) + 1 - P.significandBits, s)) ∧
        Normalised P.significandBits 3 s.toNat
          ((magnitude P.significandBits ma - magnitude P.significandBits mb) *
            2 ^ (P.significandBits + 3)) t := by
  have hw := P.typeWidth_eq
  have he := P.exponentBits_bounds
  have hdiff : (x - y).toNat = alignedDiff sa sb (ta - tb) := by
    rw [BitVec.toNat_sub_of_le, hx, hy]
    · rfl
    · rw [BitVec.le_def, hx, hy]
      exact stickyShift_le_of_le_mul (aligned_le ha hb hle)
  have hguard : (P.implicitBit <<< 3).toNat = 2 ^ (P.significandBits + 3) :=
    implicitBit_shiftLeft_toNat (by decide)
  have hzero : x - y = 0#P.typeWidth ↔ alignedDiff sa sb (ta - tb) = 0 := by
    rw [← hdiff, ← BitVec.toNat_inj, BitVec.toNat_zero]
  have hshort : x - y < P.implicitBit <<< 3 ↔
      alignedDiff sa sb (ta - tb) < 2 ^ (P.significandBits + 3) := by
    rw [BitVec.lt_def, hdiff, hguard]
  unfold subtractSignificands
  dsimp only
  rcases Nat.eq_zero_or_pos (alignedDiff sa sb (ta - tb)) with h0 | hpos
  · left
    exact ⟨by rw [if_pos (hzero.2 h0)]; rfl, alignedDiff_eq_zero ha hb hle h0⟩
  right
  rw [if_neg (fun h => Nat.ne_of_gt hpos (hzero.1 h))]
  rcases Nat.lt_or_ge (alignedDiff sa sb (ta - tb)) (2 ^ (P.significandBits + 3)) with h | h
  · obtain ⟨t, ht, hnorm⟩ := alignedDiff_cancel ha hb hle hpos h
    rw [if_pos (hshort.2 h)]
    rw [← hdiff] at h hpos ht hnorm
    have hlog : (x - y).toNat.log2 < P.significandBits + 3 :=
      (Nat.log2_lt (Nat.ne_of_gt hpos)).2 h
    have hclz := clz_ok hpos
      (show P.typeWidth - 1 - (x - y).toNat.log2 + (x - y).toNat.log2 + 1 = P.typeWidth by omega)
    have hclzGuard : clz (P.implicitBit <<< 3) =
        .ok ((P.typeWidth - 1 - (P.significandBits + 3) : Nat) : Int) := by
      refine clz_ok (by rw [hguard]; exact Nat.two_pow_pos _) ?_
      rw [hguard, Nat.log2_two_pow]
      omega
    refine ⟨(x - y) <<< (P.significandBits + 3 - (x - y).toNat.log2), t, ?_, ?_⟩
    · have hshift : ((P.typeWidth - 1 - (x - y).toNat.log2 : Nat) : Int) -
          ((P.typeWidth - 1 - (P.significandBits + 3) : Nat) : Int) =
            ((P.significandBits + 3 - (x - y).toNat.log2 : Nat) : Int) := by omega
      unfold repClz
      rw [hclz, hclzGuard, ok_bind, ok_bind, hshift, shl_ok _ rfl (by omega)]
      simp only [ok_bind, pure_eq_ok, Except.ok.injEq, Option.some.injEq, Prod.mk.injEq, and_true]
      omega
    · rw [Bits.toNat_shiftLeft_of_lt]
      · exact hnorm
      · exact Nat.lt_of_lt_of_le hnorm.lt (Nat.pow_le_pow_right (by decide) (by omega))
  · refine ⟨x - y, ta, ?_, ?_⟩
    · rw [if_neg (fun hlt => Nat.not_lt.2 h (hshort.1 hlt))]
      rfl
    · rw [hdiff]
      exact alignedDiff_normalised ha hb hle h

/-! ## The result -/

/-- The increment of the rounding to nearest is that of `roundShift`. -/
theorem roundResult_toNearest (sign : P.Rep) {result roundGuardSticky : P.Rep} {s : Nat}
    (hrgs : roundGuardSticky.toNat = s % 2 ^ 3) (hparity : result.toNat % 2 = s / 2 ^ 3 % 2)
    (hfit : result.toNat + 1 < 2 ^ P.typeWidth) :
    (roundResult .toNearest sign roundGuardSticky result).toNat + s / 2 ^ 3 =
      result.toNat + roundShift s 3 := by
  have hfour : (4#P.typeWidth).toNat = 4 := by cases P <;> rfl
  have hone : (1#P.typeWidth).toNat = 1 := by cases P <;> rfl
  have hgt : roundGuardSticky > 4#P.typeWidth ↔ 4 < s % 2 ^ 3 := by
    rw [gt_iff_lt, BitVec.lt_def, hfour, hrgs]
  have heq : roundGuardSticky = 4#P.typeWidth ↔ s % 2 ^ 3 = 4 := by
    rw [← BitVec.toNat_inj, hfour, hrgs]
  have hlow : (result &&& 1#P.typeWidth).toNat = result.toNat % 2 := by
    rw [BitVec.toNat_and, hone, Nat.and_one_is_mod]
  unfold roundResult roundShift
  dsimp only
  rcases Nat.lt_trichotomy (s % 2 ^ 3) 4 with h | h | h
  · rw [if_neg (by rw [heq]; omega), if_neg (by rw [hgt]; omega), if_pos (by omega)]
  · rw [if_pos (heq.2 h), if_neg (by rw [hgt]; omega), if_neg (by omega), if_neg (by omega),
      BitVec.toNat_add, hlow, Nat.mod_eq_of_lt (by omega)]
    omega
  · rw [if_neg (by rw [heq]; omega), if_pos (hgt.2 h), if_neg (by omega), if_pos (by omega),
      BitVec.toNat_add, hone, Nat.mod_eq_of_lt hfit]
    omega

theorem packRounded_toNat (negative : Bool) {e : Nat} (x : P.Rep) (he : e < P.maxExponent) :
    (packRounded (if negative then P.signBit else 0#P.typeWidth) e x).toNat + x.toNat / 2 ^ 3 =
      (if negative then P.format.signBit else 0) +
        (x.toNat / 2 ^ 3 % 2 ^ P.significandBits + e * 2 ^ P.significandBits) +
        roundShift x.toNat 3 := by
  have hinf := Format.infPattern_lt_signBit (f := P.format)
  have hmod := Nat.mod_lt (x.toNat / 2 ^ 3) (Nat.two_pow_pos P.significandBits)
  have hseven : (0x7#P.typeWidth).toNat = 2 ^ 3 - 1 := by cases P <;> rfl
  obtain ⟨hfields, hfield⟩ := fields_toNat (x >>> 3) he
  rw [Bits.toNat_shiftRight] at hfields
  have hresult := or_sign_toNat (x := x >>> 3 &&& P.significandMask |||
    BitVec.ofInt P.typeWidth e <<< P.significandBits) negative (by rw [hfields]; omega)
  rw [hfields] at hresult
  have hparity : ((if negative then P.format.signBit else 0) +
      (x.toNat / 2 ^ 3 % 2 ^ P.significandBits + e * 2 ^ P.significandBits)) % 2 =
        x.toNat / 2 ^ 3 % 2 := by
    have htwo : 2 ∣ 2 ^ P.significandBits :=
      dvd_pow_self 2 (Nat.ne_of_gt P.format.significandBits_pos)
    have hlow := Nat.mod_mod_of_dvd (x.toNat / 2 ^ 3) htwo
    have hhigh := Nat.mod_eq_zero_of_dvd (Dvd.dvd.mul_left htwo e)
    have hsign := Format.signBit_even (f := P.format)
    split_ifs <;> omega
  have hround := roundResult_toNearest (if negative then P.signBit else 0#P.typeWidth)
    (s := x.toNat)
    (Bits.toNat_and_lowMask (x := x) hseven) (hresult ▸ hparity) (by
      rw [hresult, P.two_pow_typeWidth]
      split_ifs <;> omega)
  rwa [hresult] at hround

/-- A significand with three guard bits is rounded to the nearest pattern of
the result it stands for. -/
theorem roundAndPack_ok (negative : Bool) {s : P.Rep} {n t : Nat}
    (h : Normalised P.significandBits 3 s.toNat (n * 2 ^ (P.significandBits + 3)) t) :
    ∃ r : P.Rep,
      roundAndPack (if negative then P.signBit else 0#P.typeWidth)
        ((t : Int) + 1 - P.significandBits) s = .ok r ∧
      r.toNat = P.format.pack negative (roundPattern P.significandBits 0 n) := by
  have hbounds := P.significandBits_bounds
  have hmax := P.maxExponent_bounds
  have hinf := Format.infPattern_lt_signBit (f := P.format)
  have hge := h.ge
  have hlt := h.lt
  have hpow := Nat.two_pow_pos P.significandBits
  have hp3 : 2 ^ (P.significandBits + 3) = 8 * 2 ^ P.significandBits := by ring
  have hp4 : 2 ^ (P.significandBits + 3 + 1) = 16 * 2 ^ P.significandBits := by ring
  have hlow := le_roundShift s.toNat 3
  have hhigh := roundShift_le s.toNat 3
  have hscale := roundPattern_mul_two_pow P.significandBits 0 n (P.significandBits + 3)
  rw [Nat.zero_add] at hscale
  rw [← hscale]
  unfold roundAndPack Format.pack
  rcases Nat.lt_or_ge t P.significandBits with hsub | hnormal
  · -- a subnormal result: the significand is shifted once more
    obtain ⟨x, hx, hxNat⟩ := shiftRightSticky_ok s
      (show 1 - ((t : Int) + 1 - P.significandBits) = ((P.significandBits - t : Nat) : Int) by
        omega)
      (by omega) (by have := P.typeWidth_eq; omega)
    refine ⟨packRounded (if negative then P.signBit else 0#P.typeWidth) 0 x, ?_, ?_⟩
    · rw [if_neg (by omega), if_pos (by omega), hx]
      rfl
    · have hround : roundShift x.toNat 3 = roundShift s.toNat (P.significandBits - t + 3) := by
        rw [hxNat, roundShift_stickyShift _ _ (by decide)]
      have hquot : x.toNat / 2 ^ 3 < 2 ^ P.significandBits := by
        have hhalf : s.toNat / 2 ^ (P.significandBits - t) ≤ s.toNat / 2 ^ 1 :=
          Nat.div_le_div_left (Nat.pow_le_pow_right (by decide) (by omega)) (by decide)
        rw [hxNat, stickyShift_div_two_pow _ _ (by decide)]
        omega
      have hpacked := packRounded_toNat (P := P) negative (e := 0) x (by omega)
      have hle := roundShift_le x.toNat 3
      rw [h.roundPattern_subnormal (by omega),
        show P.significandBits + 3 - t = P.significandBits - t + 3 by omega, ← hround]
      rw [Nat.mod_eq_of_lt hquot, Nat.zero_mul, Nat.add_zero] at hpacked
      have hcap : 2 ^ P.significandBits ≤ P.format.infPattern := by
        rw [P.format_infPattern]
        exact Nat.le_mul_of_pos_left _ (by omega)
      simp only [Nat.cast_zero] at hpacked
      omega
  · obtain ⟨i, rfl⟩ := Nat.exists_eq_add_of_le hnormal
    rw [h.roundPattern_normal (by omega),
      show 3 + (P.significandBits + i) - (P.significandBits + 3) = i by omega, P.format_infPattern]
    rcases Nat.lt_or_ge (i + 1) P.maxExponent with hfinite | hover
    · refine ⟨packRounded (if negative then P.signBit else 0#P.typeWidth) ((i + 1 : Nat) : Int) s,
        ?_, ?_⟩
      · rw [if_neg (by omega), if_neg (by omega),
          show ((P.significandBits + i : Nat) : Int) + 1 - P.significandBits = ((i + 1 : Nat) : Int)
            by omega]
        rfl
      · have hpacked := packRounded_toNat negative s hfinite
        have hfield : s.toNat / 2 ^ 3 % 2 ^ P.significandBits =
            s.toNat / 2 ^ 3 - 2 ^ P.significandBits := by
          rw [Nat.mod_eq_sub_mod (by omega), Nat.mod_eq_of_lt (by omega)]
        have hcap : (i + 2) * 2 ^ P.significandBits ≤ P.maxExponent * 2 ^ P.significandBits :=
          Nat.mul_le_mul_right _ hfinite
        rw [hfield, Nat.add_mul] at hpacked
        rw [Nat.add_mul] at hcap
        omega
    · refine ⟨P.infRep ||| if negative then P.signBit else 0#P.typeWidth, ?_, ?_⟩
      · rw [if_pos (by omega)]
        rfl
      · have hcap : P.maxExponent * 2 ^ P.significandBits ≤ (i + 1) * 2 ^ P.significandBits :=
          Nat.mul_le_mul_right _ hover
        rw [or_sign_toNat negative (by rw [P.infRep_toNat]; exact hinf), P.infRep_toNat,
          P.format_infPattern]
        rw [Nat.add_mul] at hcap
        omega

/-! ## The whole routine -/

/-- The sum of two words of one sign. -/
theorem units_add_same {a b : P.Rep} (hsign : isNegative a = isNegative b)
    (hpos : 0 < magnitude P.significandBits (a.toNat % P.format.signBit)) :
    decide (P.format.units a.toNat + P.format.units b.toNat < 0) = isNegative a ∧
      (P.format.units a.toNat + P.format.units b.toNat).natAbs =
        magnitude P.significandBits (a.toNat % P.format.signBit) +
          magnitude P.significandBits (b.toNat % P.format.signBit) := by
  rw [units_eq a, units_eq b, ← hsign]
  cases isNegative a <;> simp <;> omega

/-- The sum of two words of opposite signs, the first one larger. -/
theorem units_add_opposite {a b : P.Rep} (hsign : isNegative a ≠ isNegative b)
    (hlt : magnitude P.significandBits (b.toNat % P.format.signBit) <
      magnitude P.significandBits (a.toNat % P.format.signBit)) :
    decide (P.format.units a.toNat + P.format.units b.toNat < 0) = isNegative a ∧
      (P.format.units a.toNat + P.format.units b.toNat).natAbs =
        magnitude P.significandBits (a.toNat % P.format.signBit) -
          magnitude P.significandBits (b.toNat % P.format.signBit) := by
  rw [units_eq a, units_eq b]
  cases ha : isNegative a <;> cases hb : isNegative b <;> simp [ha, hb] at hsign ⊢ <;> omega

theorem units_add_cancel {a b : P.Rep} (hsign : isNegative a ≠ isNegative b)
    (heq : magnitude P.significandBits (a.toNat % P.format.signBit) =
      magnitude P.significandBits (b.toNat % P.format.signBit)) :
    P.format.units a.toNat + P.format.units b.toNat = 0 := by
  rw [units_eq a, units_eq b, heq]
  cases ha : isNegative a <;> cases hb : isNegative b <;> simp [ha, hb] at hsign ⊢

/-- The general case, on operands in order. -/
theorem addOrdered_ok {a b : P.Rep} (ha : IsNonzeroFinite a) (hb : IsNonzeroFinite b)
    (hle : b.toNat % P.format.signBit ≤ a.toNat % P.format.signBit) :
    ∃ r : P.Rep, addOrdered a b = .ok r ∧
      r.toNat = P.format.pack (decide (P.format.units a.toNat + P.format.units b.toNat < 0))
        (roundPattern P.significandBits 0
          (P.format.units a.toNat + P.format.units b.toNat).natAbs) := by
  obtain ⟨sa, ta, hua, hra, hta⟩ := unpack_ok ha
  obtain ⟨sb, tb, hub, hrb, htb⟩ := unpack_ok hb
  obtain ⟨hexp, -⟩ := hra.exponent_le hrb hle
  have hmax := P.maxExponent_bounds
  have hbits := P.significandBits_bounds
  have halign : (((ta : Int) + 1 - P.significandBits - ((tb : Int) + 1 - P.significandBits)) %
      2 ^ 32).toNat = ta - tb := by
    omega
  have hga := guard_toNat hra.lt
  have hgb := guard_toNat hrb.lt
  obtain ⟨y, hy, hyNat⟩ := alignSignificand_ok (x := (sb ||| P.implicitBit) <<< 3)
    (by have := hrb.ge; have := Nat.two_pow_pos P.significandBits; omega) (ta - tb)
  rw [hgb] at hyNat
  unfold addOrdered
  rw [hua, hub]
  simp only [ok_bind]
  rw [halign, hy, xor_and_signBit, and_signBit]
  simp only [ok_bind]
  by_cases hsign : isNegative a = isNegative b
  · obtain ⟨s, t, hadd, hnorm⟩ := addSignificands_ok hra hrb hexp hga hyNat
    obtain ⟨r, hr, hrNat⟩ := roundAndPack_ok (isNegative a) hnorm
    obtain ⟨hneg, habs⟩ := units_add_same hsign (magnitude_pos ha.pos)
    refine ⟨r, ?_, ?_⟩
    · rw [if_pos hsign, if_neg (not_not.2 rfl), hadd]
      exact hr
    · rw [hrNat, hneg, habs]
  · have hnonzero : P.signBit ≠ 0#P.typeWidth := by cases P <;> decide
    rw [if_neg hsign, if_pos hnonzero]
    rcases subtractSignificands_ok hra hrb hle hga hyNat with ⟨hsub, hequal⟩ | ⟨s, t, hsub, hnorm⟩
    · refine ⟨0#P.typeWidth, ?_, ?_⟩
      · rw [hsub]
        rfl
      · rw [units_add_cancel hsign hequal]
        simp [Format.pack]
    · obtain ⟨r, hr, hrNat⟩ := roundAndPack_ok (isNegative a) hnorm
      obtain ⟨hneg, habs⟩ := units_add_opposite hsign
        (Nat.lt_of_sub_pos (Nat.pos_of_mul_pos_right hnorm.pos))
      refine ⟨r, ?_, ?_⟩
      · rw [hsub]
        exact hr
      · rw [hrNat, hneg, habs]

/-- Which finite operands are special: the zeros. -/
theorem addSpecialOperands_of_finite {a b : P.Rep} (ha : P.format.IsFinite a.toNat)
    (hb : P.format.IsFinite b.toNat) :
    addSpecialOperands a b =
      if a.toNat % P.format.signBit = 0 then
        if b.toNat % P.format.signBit = 0 then some (a &&& b) else some b
      else if b.toNat % P.format.signBit = 0 then some a
      else none := by
  -- `0 - 1` wraps to the largest word, so a zero operand takes the branch
  have hwrap : ∀ x : P.Rep, x.toNat % P.format.signBit = 0 →
      (x &&& P.absMask) - 1#P.typeWidth ≥ P.infRep - 1#P.typeWidth := by
    intro x hx
    rw [(abs_eq_zero_iff x).2 hx]
    cases P <;> decide
  unfold addSpecialOperands
  simp only [not_abs_gt_infRep ha, not_abs_gt_infRep hb, abs_ne_infRep ha, abs_ne_infRep hb,
    if_false, abs_eq_zero_iff]
  by_cases hza : a.toNat % P.format.signBit = 0
  · rw [if_pos (Or.inl (hwrap a hza))]
  · by_cases hzb : b.toNat % P.format.signBit = 0
    · rw [if_pos (Or.inr (hwrap b hzb))]
    · rw [if_neg hza, if_neg hzb, ite_self]

/-- On finite operands `__addXf3__` runs without a fault, and returns the exact
sum, rounded once.  The one exception is `-0 + -0`, which is `-0`. -/
theorem addXf3_ok {a b : P.Rep} (ha : P.format.IsFinite a.toNat) (hb : P.format.IsFinite b.toNat)
    (hzeros : ¬ (a = P.signBit ∧ b = P.signBit)) :
    ∃ r : P.Rep, addXf3 a b = .ok r ∧
      r.toNat = P.format.pack (decide (P.format.units a.toNat + P.format.units b.toNat < 0))
        (roundPattern P.significandBits 0
          (P.format.units a.toNat + P.format.units b.toNat).natAbs) := by
  unfold addXf3
  rw [addSpecialOperands_of_finite ha hb]
  have hself : ∀ x : P.Rep, P.format.IsFinite x.toNat → x.toNat % P.format.signBit ≠ 0 →
      x.toNat = P.format.pack (decide (P.format.units x.toNat < 0))
        (roundPattern P.significandBits 0 (P.format.units x.toNat).natAbs) := by
    intro x hx hnonzero
    refine (Format.pack_units hx fun h => hnonzero ?_).symm
    rw [h, Nat.mod_self]
  by_cases hza : a.toNat % P.format.signBit = 0
  · by_cases hzb : b.toNat % P.format.signBit = 0
    · refine ⟨a &&& b, by rw [if_pos hza, if_pos hzb]; rfl, ?_⟩
      have hand : a &&& b = 0#P.typeWidth := by
        rcases eq_zero_or_signBit hza with rfl | rfl
        · exact BitVec.zero_and
        · rcases eq_zero_or_signBit hzb with rfl | rfl
          · exact BitVec.and_zero
          · exact absurd ⟨rfl, rfl⟩ hzeros
      rw [hand, units_of_zero hza, units_of_zero hzb]
      simp [Format.pack]
    · refine ⟨b, by rw [if_pos hza, if_neg hzb]; rfl, ?_⟩
      rw [units_of_zero hza, Int.zero_add]
      exact hself b hb hzb
  · by_cases hzb : b.toNat % P.format.signBit = 0
    · refine ⟨a, by rw [if_neg hza, if_pos hzb]; rfl, ?_⟩
      rw [units_of_zero hzb, Int.add_zero]
      exact hself a ha hza
    · have ha' : IsNonzeroFinite a := ⟨Nat.pos_of_ne_zero hza, ha.2⟩
      have hb' : IsNonzeroFinite b := ⟨Nat.pos_of_ne_zero hzb, hb.2⟩
      rw [if_neg hza, if_neg hzb]
      by_cases hswap : b &&& P.absMask > a &&& P.absMask
      · obtain ⟨r, hr, hrNat⟩ := addOrdered_ok hb' ha' (by
          rw [gt_iff_lt, BitVec.lt_def, abs_toNat, abs_toNat] at hswap
          exact Nat.le_of_lt hswap)
        refine ⟨r, by simpa only [hswap, if_true] using hr, ?_⟩
        rw [hrNat, Int.add_comm]
      · obtain ⟨r, hr, hrNat⟩ := addOrdered_ok ha' hb' (by
          rw [gt_iff_lt, BitVec.lt_def, abs_toNat, abs_toNat] at hswap
          exact Nat.le_of_not_lt hswap)
        exact ⟨r, by simpa only [hswap, if_false] using hr, hrNat⟩

/-- The sum is rounded to nearest, ties to even. -/
theorem addXf3_roundsTo {a b : P.Rep} (ha : P.format.IsFinite a.toNat)
    (hb : P.format.IsFinite b.toNat) (hzeros : ¬ (a = P.signBit ∧ b = P.signBit)) :
    ∃ r : P.Rep, addXf3 a b = .ok r ∧
      P.format.RoundsTo (P.format.value a.toNat + P.format.value b.toNat) r.toNat := by
  obtain ⟨r, hr, hrNat⟩ := addXf3_ok ha hb hzeros
  refine ⟨r, hr, ?_⟩
  have h := P.format.pack_roundsTo (P.format.units a.toNat + P.format.units b.toNat) 0
  rw [Nat.add_zero, Int.cast_add, add_div] at h
  rw [hrNat]
  exact h

end Cheesecloth.Builtins.SoftFloat
