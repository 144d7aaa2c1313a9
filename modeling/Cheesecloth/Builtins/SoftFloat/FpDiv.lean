import Cheesecloth.CodeLib.RoundedQuotient
import Cheesecloth.Builtins.SoftFloat.FpMul
import Cheesecloth.Builtins.SoftFloat.FpReciprocal

/-!
# The model of `fp_div_impl.inc`

`__divXf3__` divides two floating-point numbers with integer operations: the
special operands, the product by the reciprocal, the residual of the quotient,
the overflow, the denormal result and the rounding by the residual.

The residual is formed in words that wrap.  It is small whenever the quotient is
near, so nothing is lost (`divQuotient_ok`).

`divXf3_ok` is the result: for finite operands and a divisor other than zero no
shift is out of range, and the answer is the exact quotient, rounded once.
-/

namespace Cheesecloth.Builtins.SoftFloat

open CodeLib CodeLib.Checked

variable {P : Precision}

/-! ## The routine -/

/-- The returns of the branch for special operands.  `none` is the fall
through to the general case. -/
def divSpecialOperands (a b : P.Rep) : Option P.Rep :=
  let quotientSign := (a ^^^ b) &&& P.signBit
  if hasSpecialExponent a b then
    let aAbs := a &&& P.absMask
    let bAbs := b &&& P.absMask
    if aAbs > P.infRep then some (a ||| P.quietBit)
    else if bAbs > P.infRep then some (b ||| P.quietBit)
    else if aAbs = P.infRep then
      if bAbs = P.infRep then some P.qnanRep else some (aAbs ||| quotientSign)
    else if bAbs = P.infRep then some quotientSign
    else if aAbs = 0#P.typeWidth then
      if bAbs = 0#P.typeWidth then some P.qnanRep else some quotientSign
    else if bAbs = 0#P.typeWidth then some (P.infRep ||| quotientSign)
    else none
  else none

/-- `aSignificand`, `bSignificand` and `scale` before the implicit bit is
set. -/
def divSignificands (a b : P.Rep) : Checked (P.Rep × P.Rep × Int) :=
  if hasSpecialExponent a b then do
    let (aSignificand, aScale) ← renormalize a
    let (bSignificand, bScale) ← renormalize b
    return (aSignificand, bSignificand, aScale - bScale)
  else
    return (a &&& P.significandMask, b &&& P.significandMask, 0)

/-- `int writtenExponent = (aExponent - bExponent + scale) + exponentBias`. -/
def writtenExponentOf (a b : P.Rep) (scale : Int) : Int :=
  let aExponent : BitVec 32 := (exponentField a).setWidth 32
  let bExponent : BitVec 32 := (exponentField b).setWidth 32
  (aExponent - bExponent + BitVec.ofInt 32 scale + BitVec.ofNat 32 P.exponentBias).toInt

/-- The quotient, its residual, and the dividend and the exponent that go with
them: `quotient_UQ1`, `residualLo`, `aSignificand` and `writtenExponent`. -/
def divQuotient (aSignificand bSignificand : P.Rep) (writtenExponent : Int) :
    P.Rep × P.Rep × P.Rep × Int :=
  let x_UQ0 := reciprocal P bSignificand
  let quotient_UQ1 := (wideMultiply P x_UQ0 (aSignificand <<< 1)).1
  if quotient_UQ1 < P.implicitBit <<< 1 then
    let residualLo := aSignificand <<< (P.significandBits + 1) - quotient_UQ1 * bSignificand
    (quotient_UQ1, residualLo, aSignificand <<< 1, writtenExponent - 1)
  else
    let quotient_UQ1 := quotient_UQ1 >>> 1
    let residualLo := aSignificand <<< P.significandBits - quotient_UQ1 * bSignificand
    (quotient_UQ1, residualLo, aSignificand, writtenExponent)

/-- The rounding by the residual, and the sign. -/
def divRound (quotientSign bSignificand absResult residualLo : P.Rep) : P.Rep :=
  let residualLo := residualLo + (absResult &&& 1#P.typeWidth)
  let absResult := absResult + if residualLo > bSignificand then 1#P.typeWidth else 0#P.typeWidth
  absResult ||| quotientSign

/-- The end of the routine, from the overflow test on. -/
def divPack (quotientSign aSignificand bSignificand quotient_UQ1 residualLo : P.Rep)
    (writtenExponent : Int) : Checked P.Rep :=
  if writtenExponent ≥ P.maxExponent then
    return P.infRep ||| quotientSign
  else if writtenExponent > 0 then
    let absResult := quotient_UQ1 &&& P.significandMask
    let absResult := absResult ||| BitVec.ofInt P.typeWidth writtenExponent <<< P.significandBits
    let residualLo := residualLo <<< 1
    return divRound quotientSign bSignificand absResult residualLo
  else if P.significandBits + writtenExponent < 0 then
    return quotientSign
  else do
    let absResult ← shr quotient_UQ1 (-writtenExponent + 1)
    let residualLo := (← shl aSignificand (P.significandBits + writtenExponent)) -
      (absResult * bSignificand) <<< 1
    return divRound quotientSign bSignificand absResult residualLo

/-- The general case. -/
def divGeneral (a b : P.Rep) : Checked P.Rep := do
  let quotientSign := (a ^^^ b) &&& P.signBit
  let (aSignificand, bSignificand, scale) ← divSignificands a b
  let aSignificand := aSignificand ||| P.implicitBit
  let bSignificand := bSignificand ||| P.implicitBit
  let writtenExponent := writtenExponentOf a b scale
  let (quotient_UQ1, residualLo, aSignificand, writtenExponent) :=
    divQuotient aSignificand bSignificand writtenExponent
  divPack quotientSign aSignificand bSignificand quotient_UQ1 residualLo writtenExponent

/-- `__divXf3__`. -/
def divXf3 (a b : P.Rep) : Checked P.Rep :=
  match divSpecialOperands a b with
  | some result => return result
  | none => divGeneral a b

/-- `__divsf3`. -/
def divsf3 (a b : BitVec 32) : Checked (BitVec 32) := divXf3 (P := .single) a b

/-- `__divdf3`. -/
def divdf3 (a b : BitVec 64) : Checked (BitVec 64) := divXf3 (P := .double) a b

/-! ## Operands -/

theorem divSignificands_ok {a b : P.Rep} (ha : IsNonzeroFinite a) (hb : IsNonzeroFinite b) :
    ∃ (sa sb : P.Rep) (ta tb : Nat) (scale : Int), divSignificands a b = .ok (sa, sb, scale) ∧
      Unpacked P.significandBits (a.toNat % P.format.signBit) (sa ||| P.implicitBit).toNat ta ∧
      Unpacked P.significandBits (b.toNat % P.format.signBit) (sb ||| P.implicitBit).toNat tb ∧
      ta + 1 < P.maxExponent + P.significandBits ∧ tb + 1 < P.maxExponent + P.significandBits ∧
      ((exponentField a).toNat : Int) - (exponentField b).toNat + scale = ta - tb := by
  obtain ⟨sa, ta, ca, hra, hua, hea, hta, hna⟩ := renormalize_ok ha
  obtain ⟨sb, tb, cb, hrb, hub, heb, htb, hnb⟩ := renormalize_ok hb
  refine ⟨sa, sb, ta, tb, ca - cb, ?_, hua, hub, hta, htb, by omega⟩
  unfold divSignificands
  by_cases h : hasSpecialExponent a b
  · rw [if_pos h, hra, hrb]
    rfl
  · have hpos := mt hasSpecialExponent_of_denormal h
    obtain ⟨hsa, hca⟩ := hna (by omega)
    obtain ⟨hsb, hcb⟩ := hnb (by omega)
    rw [if_neg h, hsa, hsb, hca, hcb]
    rfl

/-- The exponent of the quotient fits an `int`, so the sum in 32 bits is
exact. -/
theorem writtenExponentOf_eq (a b : P.Rep) (scale : Int) (hlow : -2 ^ 20 ≤ scale)
    (hhigh : scale ≤ 2 ^ 20) :
    writtenExponentOf a b scale =
      (exponentField a).toNat - (exponentField b).toNat + scale + P.exponentBias := by
  have hmax := P.maxExponent_bounds
  have hbias : P.exponentBias ≤ P.maxExponent := Nat.div_le_self _ _
  obtain ⟨ha, hale⟩ := exponent_toNat a
  obtain ⟨hb, hble⟩ := exponent_toNat b
  have hword : (exponentField a).setWidth 32 - (exponentField b).setWidth 32 +
      BitVec.ofInt 32 scale + BitVec.ofNat 32 P.exponentBias =
        BitVec.ofInt 32 ((exponentField a).toNat - (exponentField b).toNat + scale +
          P.exponentBias) := by
    have hcast : ∀ x : BitVec 32, BitVec.ofInt 32 (x.toNat : Int) = x := by
      intro x
      rw [BitVec.ofInt_natCast, BitVec.ofNat_toNat, BitVec.setWidth_eq]
    rw [Int.sub_eq_add_neg, BitVec.ofInt_add, BitVec.ofInt_add, BitVec.ofInt_add, BitVec.ofInt_neg,
      BitVec.ofInt_natCast 32 P.exponentBias, ← ha, ← hb, hcast, hcast, BitVec.sub_eq_add_neg]
  unfold writtenExponentOf
  dsimp only
  rw [hword, BitVec.toInt_ofInt_eq_self (by decide) (by omega) (by omega)]

/-! ## The quotient -/

/-- The residual is exact: it is below twice the divisor, although its two terms
wrap. -/
theorem residual_toNat {x q b : P.Rep} {k : Nat} (hle : q.toNat * b.toNat ≤ x.toNat * 2 ^ k)
    (hrem : 2 * (x.toNat * 2 ^ k - q.toNat * b.toNat) < 3 * b.toNat)
    (hb : b.toNat < 2 ^ (P.significandBits + 1)) :
    (x <<< k - q * b).toNat = x.toNat * 2 ^ k - q.toNat * b.toNat := by
  have hw := P.typeWidth_eq
  have he := P.exponentBits_bounds
  have hcap : 2 ^ (P.significandBits + 2) ≤ 2 ^ P.typeWidth :=
    Nat.pow_le_pow_right (by decide) (by omega)
  rw [Nat.pow_succ] at hcap
  exact Bits.toNat_sub_of_wrapped (by rw [BitVec.toNat_shiftLeft, Nat.shiftLeft_eq])
    (BitVec.toNat_mul ..) hle (by omega)

/-- The quotient has its leading bit in place, and is too low by less than one
and a half.  A quotient below one is doubled, with the dividend. -/
theorem divQuotient_ok {x b : P.Rep} (hxge : 2 ^ P.significandBits ≤ x.toNat)
    (hxlt : x.toNat < 2 ^ (P.significandBits + 1)) (hbge : 2 ^ P.significandBits ≤ b.toNat)
    (hblt : b.toNat < 2 ^ (P.significandBits + 1)) (e : Int) :
    ∃ (s r x' : P.Rep) (j : Nat), divQuotient x b e = (s, r, x', e - j) ∧ j ≤ 1 ∧
      x'.toNat = x.toNat * 2 ^ j ∧
      TruncatedQuotient P.significandBits x'.toNat b.toNat s.toNat r.toNat := by
  have hw := P.typeWidth_eq
  have hebits := P.exponentBits_bounds
  obtain ⟨hpos, hle⟩ := reciprocal_error hbge hblt
  have hp := Nat.two_pow_pos P.significandBits
  have hpow : 2 ^ (P.significandBits + 1) = 2 * 2 ^ P.significandBits := Nat.pow_succ' ..
  have hcap : 2 ^ (P.significandBits + 2) ≤ 2 ^ P.typeWidth :=
    Nat.pow_le_pow_right (by decide) (by omega)
  have hcap' : 2 ^ (P.significandBits + 2) = 4 * 2 ^ P.significandBits := by
    rw [Nat.pow_add, Nat.mul_comm]
  have hdouble : (x <<< 1).toNat = x.toNat * 2 ^ 1 := Bits.toNat_shiftLeft_of_lt (by omega)
  have hproduct := wideMultiply_toNat (reciprocal P b) (x <<< 1)
  have hlo := (wideMultiply P (reciprocal P b) (x <<< 1)).2.isLt
  obtain ⟨hquot, hquot'⟩ := Reciprocal.quotient_bounds (w := P.typeWidth)
    (x := (reciprocal P b).toNat) (A := x.toNat) (b := b.toNat)
    (show P.typeWidth = P.significandBits + 1 + P.exponentBits by omega)
    hxlt (by omega) hpos hle
  unfold divQuotient
  dsimp only
  generalize wideMultiply P (reciprocal P b) (x <<< 1) = product at *
  obtain ⟨q, lo⟩ := product
  dsimp only at *
  have hq : (reciprocal P b).toNat * (2 * x.toNat) / 2 ^ P.typeWidth = q.toNat := by
    rw [hdouble, Nat.pow_one, Nat.mul_comm x.toNat] at hproduct
    rw [← hproduct, Nat.mul_comm q.toNat, Nat.mul_add_div (Nat.two_pow_pos _),
      Nat.div_eq_of_lt hlo, Nat.add_zero]
  rw [hq] at hquot hquot'
  have hone : (P.implicitBit <<< 1).toNat = 2 ^ (P.significandBits + 1) := by
    rw [Bits.toNat_shiftLeft_of_lt (by rw [P.implicitBit_toNat]; omega), P.implicitBit_toNat,
      ← Nat.pow_add]
  have hhalf : (q >>> 1).toNat = q.toNat / 2 := Bits.toNat_shiftRight q 1
  by_cases hbranch : q < P.implicitBit <<< 1
  · rw [if_pos hbranch]
    rw [BitVec.lt_def, hone] at hbranch
    have htrunc := TruncatedQuotient.of_lt_one hxge hblt hquot hquot' hbranch
    have hres := residual_toNat (x := x) (q := q) hquot htrunc.rem hblt
    rw [← hres, show x.toNat * 2 = (x <<< 1).toNat by rw [hdouble, Nat.pow_one]] at htrunc
    exact ⟨q, _, x <<< 1, 1, rfl, Nat.le_refl 1, hdouble, htrunc⟩
  · rw [if_neg hbranch]
    rw [BitVec.lt_def, hone, Nat.not_lt] at hbranch
    have htrunc := TruncatedQuotient.of_ge_one hxlt hbge hquot hquot' hbranch
    rw [← hhalf] at htrunc
    have hres := residual_toNat (x := x) (q := q >>> 1) (by have := htrunc.eq; omega)
      htrunc.rem hblt
    rw [← hres] at htrunc
    exact ⟨q >>> 1, _, x, 0, by simp, Nat.zero_le 1, by simp, htrunc⟩

/-! ## The result -/

/-- The rounding adds one when the residual says so. -/
theorem divRound_toNat (negative : Bool) {b m r : P.Rep} (hm : m.toNat + 1 < P.format.signBit)
    (hr : r.toNat + 1 < 2 ^ P.typeWidth) :
    (divRound (if negative then P.signBit else 0#P.typeWidth) b m r).toNat =
      (if negative then P.format.signBit else 0) +
        (m.toNat + if b.toNat < r.toNat + m.toNat % 2 then 1 else 0) := by
  have hone : (1#P.typeWidth).toNat = 1 := by cases P <;> rfl
  have hwidth := P.two_pow_typeWidth
  have hlow : (m &&& 1#P.typeWidth).toNat = m.toNat % 2 := by
    rw [BitVec.toNat_and, hone, Nat.and_one_is_mod]
  have hres : (r + (m &&& 1#P.typeWidth)).toNat = r.toNat + m.toNat % 2 := by
    rw [BitVec.toNat_add, hlow, Nat.mod_eq_of_lt (by omega)]
  have hgt : r + (m &&& 1#P.typeWidth) > b ↔ b.toNat < r.toNat + m.toNat % 2 := by
    rw [gt_iff_lt, BitVec.lt_def, hres]
  have hsum : (m + if r + (m &&& 1#P.typeWidth) > b then 1#P.typeWidth else 0#P.typeWidth).toNat =
      m.toNat + if b.toNat < r.toNat + m.toNat % 2 then 1 else 0 := by
    simp only [hgt]
    split_ifs
    · rw [BitVec.toNat_add, hone, Nat.mod_eq_of_lt (by omega)]
    · rw [BitVec.add_zero, Nat.add_zero]
  unfold divRound
  dsimp only
  rw [or_sign_toNat negative (by rw [hsum]; split_ifs <;> omega), hsum]

/-- A normal quotient, or one that overflows. -/
theorem divPack_normal (negative : Bool) {x b s r : P.Rep}
    (h : TruncatedQuotient P.significandBits x.toNat b.toNat s.toNat r.toNat)
    (hb : b.toNat < 2 ^ (P.significandBits + 1)) (k : Nat) :
    ∃ (w : P.Rep) (m : Nat),
      divPack (if negative then P.signBit else 0#P.typeWidth) x b s r ((k : Int) + 1) = .ok w ∧
      w.toNat = P.format.pack negative m ∧
      IsNearest P.significandBits (x.toNat * 2 ^ P.significandBits * 2 ^ k) b.toNat m := by
  have hinf := Format.infPattern_lt_signBit (f := P.format)
  have hge := h.ge
  have hlt := h.lt
  have hrem := h.rem
  have hw := P.typeWidth_eq
  have hebits := P.exponentBits_bounds
  have hcap : 2 ^ (P.significandBits + 4) ≤ 2 ^ P.typeWidth :=
    Nat.pow_le_pow_right (by decide) (by omega)
  have hpow4 : 2 ^ (P.significandBits + 4) = 16 * 2 ^ P.significandBits := by
    rw [Nat.pow_add, Nat.mul_comm]
  have hnearest := h.normal P.format.significandBits_pos k
  rw [Nat.pow_succ'] at hb hlt
  unfold divPack Format.pack
  rcases Nat.lt_or_ge (k + 1) P.maxExponent with hfinite | hover
  · obtain ⟨hfields, hfield⟩ := fields_toNat s hfinite
    have hhead : (s &&& P.significandMask |||
        BitVec.ofInt P.typeWidth ((k : Int) + 1) <<< P.significandBits).toNat =
          k * 2 ^ P.significandBits + s.toNat := by
      rw [← Int.natCast_succ, hfields, Nat.mod_eq_sub_mod hge, Nat.mod_eq_of_lt (by omega),
        Nat.add_mul]
      omega
    have hdouble : (r <<< 1).toNat = 2 * r.toNat := by
      rw [Bits.toNat_shiftLeft_of_lt (by omega), Nat.pow_one, Nat.mul_comm]
    have hparity : (k * 2 ^ P.significandBits + s.toNat) % 2 = s.toNat % 2 := by
      have heven : k * 2 ^ P.significandBits % 2 = 0 :=
        Nat.mod_eq_zero_of_dvd
          (Dvd.dvd.mul_left (dvd_pow_self 2 (Nat.ne_of_gt P.format.significandBits_pos)) k)
      omega
    rw [Nat.add_mul] at hfield
    refine ⟨divRound (if negative then P.signBit else 0#P.typeWidth) b
      (s &&& P.significandMask |||
        BitVec.ofInt P.typeWidth ((k : Int) + 1) <<< P.significandBits) (r <<< 1), _, ?_, ?_,
      hnearest⟩
    · rw [if_neg (by omega), if_pos (by omega)]
      rfl
    · rw [divRound_toNat negative (by rw [hhead]; omega) (by rw [hdouble]; omega), hhead, hdouble,
        hparity, Nat.min_eq_left (by split_ifs <;> omega)]
  · refine ⟨P.infRep ||| if negative then P.signBit else 0#P.typeWidth, _, if_pos (by omega), ?_,
      hnearest⟩
    have hcover : P.maxExponent * 2 ^ P.significandBits ≤ (k + 1) * 2 ^ P.significandBits :=
      Nat.mul_le_mul_right _ hover
    rw [or_sign_toNat negative (by rw [P.infRep_toNat]; exact hinf), P.infRep_toNat,
      P.format_infPattern]
    rw [Nat.add_mul] at hcover
    omega

/-- A subnormal quotient, shifted before it is rounded. -/
theorem divPack_subnormal (negative : Bool) {x b s r : P.Rep}
    (h : TruncatedQuotient P.significandBits x.toNat b.toNat s.toNat r.toNat)
    (hb : b.toNat < 2 ^ (P.significandBits + 1)) {i j : Nat} (hi : 0 < i)
    (hij : i + j = P.significandBits + 1) :
    ∃ (w : P.Rep) (m : Nat),
      divPack (if negative then P.signBit else 0#P.typeWidth) x b s r (1 - (i : Int)) = .ok w ∧
      w.toNat = P.format.pack negative m ∧
      IsNearest P.significandBits (x.toNat * 2 ^ j) (2 * b.toNat) m := by
  have hinf := Format.infPattern_lt_signBit (f := P.format)
  have hlt := h.lt
  have hw := P.typeWidth_eq
  have hebits := P.exponentBits_bounds
  have hmax := P.maxExponent_bounds
  obtain ⟨hle, hrem⟩ := h.shifted hij
  have hcap : 2 ^ (P.significandBits + 4) ≤ 2 ^ P.typeWidth :=
    Nat.pow_le_pow_right (by decide) (by omega)
  have hpow4 : 2 ^ (P.significandBits + 4) = 16 * 2 ^ P.significandBits := by
    rw [Nat.pow_add, Nat.mul_comm]
  have hquot : (s >>> i).toNat = s.toNat / 2 ^ i := Bits.toNat_shiftRight s i
  have hcapInf : 2 * 2 ^ P.significandBits ≤ P.format.infPattern := by
    rw [P.format_infPattern]
    exact Nat.mul_le_mul_right _ (by omega)
  have hsmall : s.toNat / 2 ^ i < 2 ^ P.significandBits := by
    rw [Nat.div_lt_iff_lt_mul (Nat.two_pow_pos i), ← Nat.pow_add]
    exact Nat.lt_of_lt_of_le hlt (Nat.pow_le_pow_right (by decide) (by omega))
  rw [Nat.pow_succ'] at hb
  have hproduct : ((s >>> i * b) <<< 1).toNat =
      s.toNat / 2 ^ i * (2 * b.toNat) % 2 ^ P.typeWidth := by
    rw [BitVec.toNat_shiftLeft, BitVec.toNat_mul, Nat.shiftLeft_eq, hquot, Nat.mod_mul_mod,
      Nat.pow_one, Nat.mul_assoc, Nat.mul_comm b.toNat]
  have hres : (x <<< j - (s >>> i * b) <<< 1).toNat =
      x.toNat * 2 ^ j - s.toNat / 2 ^ i * (2 * b.toNat) :=
    Bits.toNat_sub_of_wrapped (by rw [BitVec.toNat_shiftLeft, Nat.shiftLeft_eq]) hproduct hle
      (by omega)
  refine ⟨divRound (if negative then P.signBit else 0#P.typeWidth) b (s >>> i)
    (x <<< j - (s >>> i * b) <<< 1), _, ?_, ?_, h.subnormal P.format.significandBits_pos hij⟩
  · unfold divPack
    rw [if_neg (by omega), if_neg (by omega), if_neg (by omega),
      shr_ok s (show -(1 - (i : Int)) + 1 = (i : Nat) by omega) (by omega), ok_bind,
      shl_ok x (show (P.significandBits : Int) + (1 - i) = (j : Nat) by omega) (by omega)]
    rfl
  · rw [divRound_toNat negative (by rw [hquot]; omega) (by rw [hres]; omega), hquot, hres,
      Format.pack]
    split_ifs <;> omega

/-- The quotient is rounded to the nearest pattern of any fraction that it
stands for. -/
theorem divPack_ok (negative : Bool) {x b s r : P.Rep} {n d i j : Nat} {e : Int}
    (h : TruncatedQuotient P.significandBits x.toNat b.toNat s.toNat r.toNat)
    (hb : b.toNat < 2 ^ (P.significandBits + 1)) (hd : 0 < d) (he : e = (i : Int) - j + 1)
    (hratio : n * (b.toNat * 2 ^ j) = x.toNat * 2 ^ P.significandBits * 2 ^ i * d) :
    ∃ (w : P.Rep) (m : Nat),
      divPack (if negative then P.signBit else 0#P.typeWidth) x b s r e = .ok w ∧
      w.toNat = P.format.pack negative m ∧ IsNearest P.significandBits n d m := by
  have hmax := P.maxExponent_bounds
  rcases Nat.lt_or_ge i j with hlt | hge
  · obtain ⟨k, rfl⟩ := Nat.exists_eq_add_of_lt hlt
    obtain rfl : e = 1 - ((k + 1 : Nat) : Int) := by omega
    -- the exponents cancel up to `k + 1` places
    have hcancel : n * b.toNat * 2 ^ (k + 1) = x.toNat * d * 2 ^ P.significandBits := by
      apply Nat.eq_of_mul_eq_mul_right (Nat.two_pow_pos i)
      rw [Nat.add_assoc, Nat.pow_add] at hratio
      linarith
    rcases Nat.lt_or_ge P.significandBits k with hzero | hsub
    · obtain ⟨l, hl⟩ := Nat.exists_eq_add_of_lt hzero
      refine ⟨if negative then P.signBit else 0#P.typeWidth, 0, ?_, ?_,
        (h.zero P.format.significandBits_pos (show 2 ≤ l + 2 by omega)).of_ratio
          (Nat.mul_pos h.pos (Nat.two_pow_pos _)) hd ?_⟩
      · unfold divPack
        rw [if_neg (by omega), if_neg (by omega), if_pos (by omega)]
        rfl
      · rw [sign_toNat, Format.pack, Nat.zero_min, Nat.add_zero]
      · apply Nat.eq_of_mul_eq_mul_right (Nat.two_pow_pos P.significandBits)
        rw [show k + 1 = P.significandBits + (l + 2) by omega, Nat.pow_add] at hcancel
        linarith
    · obtain ⟨l, hl⟩ := Nat.exists_eq_add_of_le hsub
      obtain ⟨w, m, hw, hpack, hnearest⟩ :=
        divPack_subnormal negative h hb (Nat.succ_pos k) (show k + 1 + l = _ by omega)
      refine ⟨w, m, hw, hpack, hnearest.of_ratio (by have := h.pos; omega) hd ?_⟩
      apply Nat.eq_of_mul_eq_mul_right (Nat.two_pow_pos k)
      rw [hl, Nat.pow_add 2 k l, Nat.pow_succ] at hcancel
      linarith
  · obtain ⟨k, rfl⟩ := Nat.exists_eq_add_of_le hge
    obtain rfl : e = (k : Int) + 1 := by omega
    obtain ⟨w, m, hw, hpack, hnearest⟩ := divPack_normal negative h hb k
    refine ⟨w, m, hw, hpack, hnearest.of_ratio h.pos hd ?_⟩
    apply Nat.eq_of_mul_eq_mul_right (Nat.two_pow_pos j)
    rw [Nat.pow_add] at hratio
    linarith

/-! ## The whole routine -/

/-- The general case. -/
theorem divGeneral_ok {a b : P.Rep} (ha : IsNonzeroFinite a) (hb : IsNonzeroFinite b) :
    ∃ (r : P.Rep) (m : Nat), divGeneral a b = .ok r ∧
      r.toNat = P.format.pack (isNegative a ^^ isNegative b) m ∧
      IsNearest P.significandBits
        (magnitude P.significandBits (a.toNat % P.format.signBit) * 2 ^ P.format.scale)
        (magnitude P.significandBits (b.toNat % P.format.signBit)) m := by
  obtain ⟨sa, sb, ta, tb, scale, hsig, hua, hub, hta, htb, hexp⟩ := divSignificands_ok ha hb
  have hpbits := P.significandBits_bounds
  have hmax := P.maxExponent_bounds
  have hbias : 1 ≤ P.exponentBias := by cases P <;> decide
  have hea := (exponent_toNat a).2
  have heb := (exponent_toNat b).2
  have hE := writtenExponentOf_eq a b scale (by omega) (by omega)
  have hscale : P.format.scale = P.exponentBias + P.significandBits - 1 := by
    rw [Format.scale, P.format_bias]
    rfl
  obtain ⟨s, r, x, j, hquotient, hj, hx, htrunc⟩ :=
    divQuotient_ok hua.ge hua.lt hub.ge hub.lt (writtenExponentOf a b scale)
  unfold divGeneral
  rw [hsig, productSign_eq]
  simp only [ok_bind, hquotient]
  refine divPack_ok (i := ta + P.exponentBias) (j := tb + j + 1) _ htrunc hub.lt
    (magnitude_pos hb.pos) (by push_cast; omega) ?_
  have hpow : 2 ^ P.format.scale * 2 = 2 ^ P.exponentBias * 2 ^ P.significandBits := by
    rw [← Nat.pow_succ, ← Nat.pow_add]
    congr 1
    omega
  apply Nat.eq_of_mul_eq_mul_right (Nat.two_pow_pos P.significandBits)
  calc magnitude P.significandBits (a.toNat % P.format.signBit) * 2 ^ P.format.scale *
          ((sb ||| P.implicitBit).toNat * 2 ^ (tb + j + 1)) * 2 ^ P.significandBits
      = magnitude P.significandBits (a.toNat % P.format.signBit) * 2 ^ P.significandBits *
          (2 ^ P.format.scale * 2) * ((sb ||| P.implicitBit).toNat * 2 ^ tb) * 2 ^ j := by ring
    _ = x.toNat * 2 ^ P.significandBits * 2 ^ (ta + P.exponentBias) *
          magnitude P.significandBits (b.toNat % P.format.signBit) * 2 ^ P.significandBits := by
        rw [hua.value, hpow, ← hub.value, hx]
        ring

/-- Which finite operands are special: the zeros. -/
theorem divSpecialOperands_of_finite {a b : P.Rep} (ha : P.format.IsFinite a.toNat)
    (hb : P.format.IsFinite b.toNat) (hnonzero : b.toNat % P.format.signBit ≠ 0) :
    divSpecialOperands a b =
      if a.toNat % P.format.signBit = 0 then some ((a ^^^ b) &&& P.signBit) else none := by
  unfold divSpecialOperands
  simp only [not_abs_gt_infRep ha, not_abs_gt_infRep hb, abs_ne_infRep ha, abs_ne_infRep hb,
    if_false, abs_eq_zero_iff, hnonzero]
  by_cases hzero : a.toNat % P.format.signBit = 0
  · have hfield : (exponentField a).toNat = 0 := by rw [exponentField_toNat, hzero, Nat.zero_div]
    rw [if_pos (hasSpecialExponent_of_denormal (Or.inl hfield)), if_pos hzero]
  · rw [if_neg hzero, ite_self]

/-- On finite operands `__divXf3__` runs without a fault, and returns the
quotient rounded once.  A zero quotient takes its sign from the operands. -/
theorem divXf3_ok {a b : P.Rep} (ha : P.format.IsFinite a.toNat) (hb : P.format.IsFinite b.toNat)
    (hnonzero : P.format.units b.toNat ≠ 0) :
    ∃ (r : P.Rep) (m : Nat), divXf3 a b = .ok r ∧
      r.toNat = P.format.pack (isNegative a ^^ isNegative b) m ∧
      IsNearest P.significandBits ((P.format.units a.toNat).natAbs * 2 ^ P.format.scale)
        (P.format.units b.toNat).natAbs m := by
  have hbzero : b.toNat % P.format.signBit ≠ 0 := mt units_of_zero hnonzero
  unfold divXf3
  rw [divSpecialOperands_of_finite ha hb hbzero, Format.natAbs_units, Format.natAbs_units]
  by_cases hzero : a.toNat % P.format.signBit = 0
  · refine ⟨(a ^^^ b) &&& P.signBit, 0, by rw [if_pos hzero]; rfl, ?_, ?_⟩
    · rw [productSign_eq, sign_toNat, Format.pack, Nat.zero_min, Nat.add_zero]
    · rw [hzero, magnitude_zero, Nat.zero_mul]
      exact ⟨fun c => by simp [Nat.dist], fun _ _ _ => rfl⟩
  · rw [if_neg hzero]
    exact divGeneral_ok ⟨by omega, ha.2⟩ ⟨by omega, hb.2⟩

/-- The sign of a word whose value is not zero. -/
theorem isNegative_eq {a : P.Rep} (h : P.format.units a.toNat ≠ 0) :
    isNegative a = decide (P.format.units a.toNat < 0) := by
  rw [units_eq] at *
  cases isNegative a <;> simp at *
  omega

/-- The sign of a quotient that is not zero, and the quotient as a fraction with
a positive denominator. -/
theorem units_div {a b : P.Rep} (ha : P.format.units a.toNat ≠ 0)
    (hb : P.format.units b.toNat ≠ 0) :
    ∃ X : Int, X.natAbs = (P.format.units a.toNat).natAbs * 2 ^ P.format.scale ∧
      (isNegative a ^^ isNegative b) = decide (X < 0) ∧
      P.format.value a.toNat / P.format.value b.toNat =
        (X : ℚ) / (2 ^ P.format.scale * (P.format.units b.toNat).natAbs) := by
  rw [isNegative_eq ha, isNegative_eq hb]
  unfold Format.value
  generalize P.format.units a.toNat = ua at *
  generalize P.format.units b.toNat = ub at *
  have hpow : (0 : Int) < 2 ^ P.format.scale := by positivity
  have hpowQ : (2 : ℚ) ^ P.format.scale ≠ 0 := by positivity
  rcases Int.lt_or_gt_of_ne hb with hneg | hpos
  · refine ⟨-(ua * 2 ^ P.format.scale), by simp [Int.natAbs_mul, Int.natAbs_pow], ?_, ?_⟩
    · rw [decide_eq_true hneg, Bool.xor_true, ← decide_not, decide_eq_decide, Int.neg_lt_zero_iff,
        mul_pos_iff_of_pos_right hpow]
      omega
    · obtain ⟨n, rfl⟩ : ∃ n : Nat, ub = -n := ⟨ub.natAbs, by omega⟩
      have hn : (n : ℚ) ≠ 0 := Nat.cast_ne_zero.2 (by omega)
      rw [Int.natAbs_neg, Int.natAbs_natCast]
      push_cast
      field_simp
  · refine ⟨ua * 2 ^ P.format.scale, by simp [Int.natAbs_mul, Int.natAbs_pow], ?_, ?_⟩
    · rw [decide_eq_false (show ¬ ub < 0 by omega), Bool.xor_false, decide_eq_decide,
        ← not_le, ← not_le, mul_nonneg_iff_of_pos_right hpow]
    · obtain ⟨n, rfl⟩ : ∃ n : Nat, ub = n := ⟨ub.natAbs, by omega⟩
      have hn : (n : ℚ) ≠ 0 := Nat.cast_ne_zero.2 (by omega)
      rw [Int.natAbs_natCast]
      push_cast
      field_simp

/-- A quotient that is not zero is rounded to nearest, ties to even. -/
theorem divXf3_roundsTo {a b : P.Rep} (ha : P.format.IsFinite a.toNat)
    (hb : P.format.IsFinite b.toNat) (hanz : P.format.units a.toNat ≠ 0)
    (hbnz : P.format.units b.toNat ≠ 0) :
    ∃ r : P.Rep, divXf3 a b = .ok r ∧
      P.format.RoundsTo (P.format.value a.toNat / P.format.value b.toNat) r.toNat := by
  obtain ⟨r, m, hr, hpack, hnearest⟩ := divXf3_ok ha hb hbnz
  obtain ⟨X, hX, hsign, hvalue⟩ := units_div hanz hbnz
  refine ⟨r, hr, ?_⟩
  rw [hpack, hsign, hvalue]
  rw [← hX] at hnearest
  exact Format.pack_roundsTo_div (Int.natAbs_pos.2 hbnz) hnearest

end Cheesecloth.Builtins.SoftFloat
