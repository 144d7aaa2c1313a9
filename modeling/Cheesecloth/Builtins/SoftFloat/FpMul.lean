import Cheesecloth.Builtins.SoftFloat.FpLib

/-!
# The model of `fp_mul_impl.inc`

`__mulXf3__` multiplies two floating-point numbers with integer operations:
the special operands, the double-width product of the significands, its
normalisation, the overflow, the denormal result and the rounding.

The exponents are `unsigned int` in the source, and their sum is formed in 32
bits that wrap.  The model keeps that (`productExponentOf`), and
`productExponentOf_eq` shows that nothing is lost.

`mulXf3_ok` is the result: for finite operands no shift is out of range, and
the answer is the exact product, rounded once.
-/

namespace Cheesecloth.Builtins.SoftFloat

open CodeLib CodeLib.Checked

variable {P : Precision}

/-! ## The routine -/

/-- `aExponent - 1U >= maxExponent - 1U || bExponent - 1U >= maxExponent - 1U`. -/
def hasSpecialExponent (a b : P.Rep) : Prop :=
  let aExponent : BitVec 32 := (exponentField a).setWidth 32
  let bExponent : BitVec 32 := (exponentField b).setWidth 32
  let maxExponent : BitVec 32 := BitVec.ofNat 32 P.maxExponent
  aExponent - 1#32 ≥ maxExponent - 1#32 ∨ bExponent - 1#32 ≥ maxExponent - 1#32

instance (a b : P.Rep) : Decidable (hasSpecialExponent a b) :=
  inferInstanceAs (Decidable (_ ∨ _))

/-- The returns of the branch for special operands.  `none` is the fall
through to the general case. -/
def mulSpecialOperands (a b : P.Rep) : Option P.Rep :=
  let productSign := (a ^^^ b) &&& P.signBit
  if hasSpecialExponent a b then
    let aAbs := a &&& P.absMask
    let bAbs := b &&& P.absMask
    if aAbs > P.infRep then some (a ||| P.quietBit)
    else if bAbs > P.infRep then some (b ||| P.quietBit)
    else if aAbs = P.infRep then
      if bAbs ≠ 0#P.typeWidth then some (aAbs ||| productSign) else some P.qnanRep
    else if bAbs = P.infRep then
      if aAbs ≠ 0#P.typeWidth then some (bAbs ||| productSign) else some P.qnanRep
    else if aAbs = 0#P.typeWidth then some productSign
    else if bAbs = 0#P.typeWidth then some productSign
    else none
  else none

/-- The significand of an operand in the same branch, and what it adds to
`scale`. -/
def renormalize (a : P.Rep) : Checked (P.Rep × Int) :=
  if a &&& P.absMask < P.implicitBit then normalize (a &&& P.significandMask)
  else return (a &&& P.significandMask, 0)

/-- `aSignificand`, `bSignificand` and `scale` before the implicit bit is
set. -/
def mulSignificands (a b : P.Rep) : Checked (P.Rep × P.Rep × Int) :=
  if hasSpecialExponent a b then do
    let (aSignificand, aScale) ← renormalize a
    let (bSignificand, bScale) ← renormalize b
    return (aSignificand, bSignificand, aScale + bScale)
  else
    return (a &&& P.significandMask, b &&& P.significandMask, 0)

/-- `int productExponent = aExponent + bExponent - exponentBias + scale`. -/
def productExponentOf (a b : P.Rep) (scale : Int) : Int :=
  let aExponent : BitVec 32 := (exponentField a).setWidth 32
  let bExponent : BitVec 32 := (exponentField b).setWidth 32
  (aExponent + bExponent - BitVec.ofNat 32 P.exponentBias + BitVec.ofInt 32 scale).toInt

/-- `const unsigned int shift = REP_C(1) - (unsigned int)productExponent`. -/
def denormalShift (P : Precision) (productExponent : Int) : BitVec 32 :=
  (1#P.typeWidth - (BitVec.ofInt 32 productExponent).setWidth P.typeWidth).setWidth 32

/-- The sign and the final rounding. -/
def mulRound (productSign productHi productLo : P.Rep) : P.Rep :=
  let productHi := productHi ||| productSign
  let productHi := if productLo > P.signBit then productHi + 1#P.typeWidth else productHi
  if productLo = P.signBit then productHi + (productHi &&& 1#P.typeWidth) else productHi

/-- The end of the routine, from the overflow test on. -/
def mulPack (productSign : P.Rep) (productExponent : Int) (productHi productLo : P.Rep) :
    Checked P.Rep :=
  if productExponent ≥ P.maxExponent then
    return P.infRep ||| productSign
  else if productExponent ≤ 0 then
    let shift := (denormalShift P productExponent).toNat
    if shift ≥ P.typeWidth then
      return productSign
    else do
      let (productHi, productLo) ← wideRightShiftWithSticky productHi productLo shift
      return mulRound productSign productHi productLo
  else
    let productHi := productHi &&& P.significandMask
    let productHi := productHi ||| BitVec.ofInt P.typeWidth productExponent <<< P.significandBits
    return mulRound productSign productHi productLo

/-- The general case. -/
def mulGeneral (a b : P.Rep) : Checked P.Rep := do
  let productSign := (a ^^^ b) &&& P.signBit
  let (aSignificand, bSignificand, scale) ← mulSignificands a b
  let aSignificand := aSignificand ||| P.implicitBit
  let bSignificand := bSignificand ||| P.implicitBit
  let (productHi, productLo) := wideMultiply P aSignificand (bSignificand <<< P.exponentBits)
  let productExponent := productExponentOf a b scale
  if productHi &&& P.implicitBit ≠ 0#P.typeWidth then
    mulPack productSign (productExponent + 1) productHi productLo
  else
    let (productHi, productLo) ← wideLeftShift productHi productLo 1
    mulPack productSign productExponent productHi productLo

/-- `__mulXf3__`. -/
def mulXf3 (a b : P.Rep) : Checked P.Rep :=
  match mulSpecialOperands a b with
  | some result => return result
  | none => mulGeneral a b

/-! ## Operands -/

theorem denormal_iff (a : P.Rep) :
    a &&& P.absMask < P.implicitBit ↔ (exponentField a).toNat = 0 := by
  rw [BitVec.lt_def, abs_toNat, P.implicitBit_toNat, exponentField_toNat,
    Nat.div_eq_zero_iff_lt (Nat.two_pow_pos _)]

theorem exponent_toNat (a : P.Rep) :
    ((exponentField a).setWidth 32).toNat = (exponentField a).toNat ∧
      (exponentField a).toNat ≤ P.maxExponent := by
  have hmax := P.maxExponent_bounds
  have hle := exponentField_le a
  exact ⟨by rw [BitVec.toNat_setWidth, Nat.mod_eq_of_lt (by omega)], hle⟩

/-- An operand with exponent zero is special: `0 - 1U` wraps. -/
theorem hasSpecialExponent_of_denormal {a b : P.Rep}
    (h : (exponentField a).toNat = 0 ∨ (exponentField b).toNat = 0) : hasSpecialExponent a b := by
  have hzero : ∀ x : P.Rep, (exponentField x).toNat = 0 →
      (exponentField x).setWidth 32 - 1#32 ≥ BitVec.ofNat 32 P.maxExponent - 1#32 := by
    intro x hx
    have h0 : (exponentField x).setWidth 32 = 0#32 := by
      apply BitVec.eq_of_toNat_eq
      rw [(exponent_toNat x).1, hx, BitVec.toNat_zero]
    rw [h0]
    cases P <;> decide
  exact h.imp (hzero a) (hzero b)

theorem renormalize_ok {a : P.Rep} (h : IsNonzeroFinite a) :
    ∃ (s : P.Rep) (t : Nat) (scale : Int), renormalize a = .ok (s, scale) ∧
      Unpacked P.significandBits (a.toNat % P.format.signBit) (s ||| P.implicitBit).toNat t ∧
      ((exponentField a).toNat : Int) + scale = t + 1 - P.significandBits ∧
      t + 1 < P.maxExponent + P.significandBits ∧
      (0 < (exponentField a).toNat → s = a &&& P.significandMask ∧ scale = 0) := by
  have hmax := P.maxExponent_bounds
  unfold renormalize
  rcases operand_cases h with ⟨hzero, s, t, hs, hunpacked, ht⟩ | ⟨hpos, hlt, hunpacked⟩
  · rw [if_pos ((denormal_iff a).2 hzero)]
    exact ⟨s, t, _, hs, hunpacked, by omega, by omega, by omega⟩
  · rw [if_neg fun hd => Nat.ne_of_gt hpos ((denormal_iff a).1 hd)]
    exact ⟨_, _, 0, rfl, hunpacked, by omega, by omega, fun _ => ⟨rfl, rfl⟩⟩

theorem mulSignificands_ok {a b : P.Rep} (ha : IsNonzeroFinite a) (hb : IsNonzeroFinite b) :
    ∃ (sa sb : P.Rep) (ta tb : Nat) (scale : Int), mulSignificands a b = .ok (sa, sb, scale) ∧
      Unpacked P.significandBits (a.toNat % P.format.signBit) (sa ||| P.implicitBit).toNat ta ∧
      Unpacked P.significandBits (b.toNat % P.format.signBit) (sb ||| P.implicitBit).toNat tb ∧
      ta + 1 < P.maxExponent + P.significandBits ∧ tb + 1 < P.maxExponent + P.significandBits ∧
      ((exponentField a).toNat : Int) + (exponentField b).toNat + scale =
        ta + tb + 2 - 2 * P.significandBits := by
  obtain ⟨sa, ta, ca, hra, hua, hea, hta, hna⟩ := renormalize_ok ha
  obtain ⟨sb, tb, cb, hrb, hub, heb, htb, hnb⟩ := renormalize_ok hb
  refine ⟨sa, sb, ta, tb, ca + cb, ?_, hua, hub, hta, htb, by omega⟩
  unfold mulSignificands
  by_cases h : hasSpecialExponent a b
  · rw [if_pos h, hra, hrb]
    rfl
  · have hpos := mt hasSpecialExponent_of_denormal h
    obtain ⟨hsa, hca⟩ := hna (by omega)
    obtain ⟨hsb, hcb⟩ := hnb (by omega)
    rw [if_neg h, hsa, hsb, hca, hcb]
    rfl

/-- The exponent of the product fits an `int`, so the sum in 32 bits is
exact. -/
theorem productExponentOf_eq (a b : P.Rep) (scale : Int) (hlow : -2 ^ 20 ≤ scale)
    (hhigh : scale ≤ 2 ^ 20) :
    productExponentOf a b scale =
      (exponentField a).toNat + (exponentField b).toNat - P.exponentBias + scale := by
  have hmax := P.maxExponent_bounds
  have hbias : P.exponentBias ≤ P.maxExponent := Nat.div_le_self _ _
  obtain ⟨ha, hale⟩ := exponent_toNat a
  obtain ⟨hb, hble⟩ := exponent_toNat b
  have hword : (exponentField a).setWidth 32 + (exponentField b).setWidth 32 -
      BitVec.ofNat 32 P.exponentBias + BitVec.ofInt 32 scale =
        BitVec.ofInt 32 ((exponentField a).toNat + (exponentField b).toNat - P.exponentBias +
          scale) := by
    have hcast : ∀ x : BitVec 32, BitVec.ofInt 32 (x.toNat : Int) = x := by
      intro x
      rw [BitVec.ofInt_natCast, BitVec.ofNat_toNat, BitVec.setWidth_eq]
    rw [Int.sub_eq_add_neg, BitVec.ofInt_add, BitVec.ofInt_add, BitVec.ofInt_add, BitVec.ofInt_neg,
      BitVec.ofInt_natCast 32 P.exponentBias, ← ha, ← hb, hcast, hcast, BitVec.sub_eq_add_neg]
  unfold productExponentOf
  dsimp only
  rw [hword, BitVec.toInt_ofInt_eq_self (by decide) (by omega) (by omega)]

theorem denormalShift_toNat {e : Int} (hlow : -2 ^ 20 ≤ e) (hhigh : e ≤ 0) :
    (denormalShift P e).toNat = (1 - e).toNat := by
  have hword : (BitVec.ofInt 32 e).toNat = (e % 2 ^ 32).toNat := by
    rw [BitVec.toNat_ofInt]
    rfl
  unfold denormalShift
  cases P with
  | single =>
    change ((1#32 - (BitVec.ofInt 32 e).setWidth 32).setWidth 32).toNat = _
    rw [BitVec.setWidth_eq, BitVec.setWidth_eq, BitVec.toNat_sub, hword]
    simp only [BitVec.toNat_ofNat]
    omega
  | double =>
    change ((1#64 - (BitVec.ofInt 32 e).setWidth 64).setWidth 32).toNat = _
    rw [BitVec.toNat_setWidth, BitVec.toNat_sub, BitVec.toNat_setWidth, hword]
    simp only [BitVec.toNat_ofNat]
    omega

/-! ## The result -/

/-- The rounding of the double-width product at the high word. -/
theorem mulRound_toNat (negative : Bool) {hi lo : P.Rep} (hfit : hi.toNat + 1 < P.format.signBit) :
    (mulRound (if negative then P.signBit else 0#P.typeWidth) hi lo).toNat =
      (if negative then P.format.signBit else 0) +
        roundShift (hi.toNat * 2 ^ P.typeWidth + lo.toNat) P.typeWidth := by
  have hone : (1#P.typeWidth).toNat = 1 := by cases P <;> rfl
  have heven := Format.signBit_even (f := P.format)
  have hword := or_sign_toNat (x := hi) negative (by omega)
  have hlo := lo.isLt
  have hwidth := P.two_pow_typeWidth
  have hdiv : (hi.toNat * 2 ^ P.typeWidth + lo.toNat) / 2 ^ P.typeWidth = hi.toNat := by
    rw [Nat.mul_comm, Nat.mul_add_div (Nat.two_pow_pos _), Nat.div_eq_of_lt hlo, Nat.add_zero]
  have hmod : (hi.toNat * 2 ^ P.typeWidth + lo.toNat) % 2 ^ P.typeWidth = lo.toNat := by
    rw [Nat.mul_comm, Nat.mul_add_mod, Nat.mod_eq_of_lt hlo]
  have hgt : lo > P.signBit ↔ P.format.signBit < lo.toNat := by
    rw [gt_iff_lt, BitVec.lt_def, P.signBit_toNat, P.format_signBit]
  have heq : lo = P.signBit ↔ lo.toNat = P.format.signBit := by
    rw [← BitVec.toNat_inj, P.signBit_toNat, P.format_signBit]
  unfold mulRound roundShift
  rw [hdiv, hmod, hwidth]
  dsimp only
  have hsign : (if negative then P.format.signBit else 0) % 2 = 0 ∧
      (if negative then P.format.signBit else 0) ≤ P.format.signBit := by
    split_ifs <;> omega
  generalize (hi ||| if negative then P.signBit else 0#P.typeWidth) = x at *
  generalize (if negative then P.format.signBit else 0) = sign at *
  have hlow : (x &&& 1#P.typeWidth).toNat = x.toNat % 2 := by
    rw [BitVec.toNat_and, hone, Nat.and_one_is_mod]
  rcases Nat.lt_trichotomy lo.toNat P.format.signBit with h | h | h
  · rw [if_neg (by rw [heq]; omega), if_neg (by rw [hgt]; omega), if_pos (by omega), hword]
  · rw [if_pos (heq.2 h), if_neg (by rw [hgt]; omega), if_neg (by omega), if_neg (by omega),
      BitVec.toNat_add, hlow, Nat.mod_eq_of_lt (by omega)]
    omega
  · rw [if_neg (by rw [heq]; omega), if_pos (hgt.2 h), if_neg (by omega), if_pos (by omega),
      BitVec.toNat_add, hone, Nat.mod_eq_of_lt (by omega)]
    omega

theorem sign_toNat (negative : Bool) :
    (if negative then P.signBit else 0#P.typeWidth).toNat =
      if negative then P.format.signBit else 0 := by
  cases negative
  · simp
  · rw [if_pos rfl, if_pos rfl, P.signBit_toNat, P.format_signBit]

/-- A subnormal product, shifted once more. -/
theorem mulPack_subnormal (negative : Bool) {hi lo : P.Rep} {n t j : Nat} {e : Int}
    (h : Normalised P.significandBits P.typeWidth (hi.toNat * 2 ^ P.typeWidth + lo.toNat) n t)
    (he : e = P.typeWidth + t + 1 - j) (hlow : -2 ^ 20 ≤ e) (hsub : e ≤ 0) :
    ∃ r : P.Rep, mulPack (if negative then P.signBit else 0#P.typeWidth) e hi lo = .ok r ∧
      r.toNat = P.format.pack negative (roundPattern P.significandBits j n) := by
  have hw := P.typeWidth_eq
  have hebits := P.exponentBits_bounds
  have hmax := P.maxExponent_bounds
  have hshift := denormalShift_toNat (P := P) hlow hsub
  obtain ⟨k, hk⟩ : ∃ k : Nat, (1 - e).toNat = k := ⟨_, rfl⟩
  rw [hk] at hshift
  have hlt := h.lt
  generalize hS : hi.toNat * 2 ^ P.typeWidth + lo.toNat = S at *
  have hpattern : roundPattern P.significandBits j n = roundShift S (P.typeWidth + k) := by
    rw [h.roundPattern_subnormal (by omega)]
    congr 1
    omega
  unfold mulPack Format.pack
  rw [hpattern, if_neg (by omega), if_pos hsub, hshift]
  dsimp only
  rcases Nat.lt_or_ge k P.typeWidth with hfit | hover
  · obtain ⟨hi', lo', hright, hsum⟩ := wideRightShiftWithSticky_ok hi lo (show 0 < k by omega) hfit
    rw [hS] at hsum
    have hsmall : stickyShift S k < 2 ^ (P.significandBits + P.typeWidth) := by
      apply stickyShift_lt (by omega)
      exact Nat.lt_of_lt_of_le hlt (Nat.pow_le_pow_right (by decide) (by omega))
    have hhi : hi'.toNat < 2 ^ P.significandBits := by
      rw [Nat.pow_add, ← hsum] at hsmall
      exact Nat.lt_of_mul_lt_mul_right (Nat.lt_of_le_of_lt (Nat.le_add_right _ _) hsmall)
    have hcap : 2 ^ P.significandBits ≤ P.format.infPattern := by
      rw [P.format_infPattern]
      exact Nat.le_mul_of_pos_left _ (by omega)
    have hinf := Format.infPattern_lt_signBit (f := P.format)
    have hround : roundShift S (P.typeWidth + k) ≤ 2 ^ P.significandBits := by
      have hle := roundShift_le (stickyShift S k) P.typeWidth
      have hdiv : stickyShift S k / 2 ^ P.typeWidth < 2 ^ P.significandBits := by
        rwa [Nat.div_lt_iff_lt_mul (Nat.two_pow_pos _), ← Nat.pow_add]
      rw [Nat.add_comm, ← roundShift_stickyShift S k (by omega)]
      omega
    refine ⟨mulRound (if negative then P.signBit else 0#P.typeWidth) hi' lo', ?_, ?_⟩
    · rw [if_neg (by omega), hright]
      rfl
    · rw [mulRound_toNat negative (by omega), hsum, roundShift_stickyShift S k (by omega),
        Nat.add_comm k, Nat.min_eq_left (by omega)]
  · refine ⟨_, if_pos hover, ?_⟩
    have hzero : roundShift S (P.typeWidth + k) = 0 := by
      apply roundShift_eq_zero
      have hpow : 2 ^ (P.significandBits + P.typeWidth + 2) ≤ 2 ^ (P.typeWidth + k) :=
        Nat.pow_le_pow_right (by decide) (by omega)
      rw [Nat.pow_succ] at hpow
      omega
    rw [hzero, sign_toNat, Nat.zero_min, Nat.add_zero]

/-- A normal product, or one that overflows. -/
theorem mulPack_normal (negative : Bool) {hi lo : P.Rep} {n t j e : Nat}
    (h : Normalised P.significandBits P.typeWidth (hi.toNat * 2 ^ P.typeWidth + lo.toNat) n t)
    (he : e + j = P.typeWidth + t) :
    ∃ r : P.Rep,
      mulPack (if negative then P.signBit else 0#P.typeWidth) ((e : Int) + 1) hi lo = .ok r ∧
      r.toNat = P.format.pack negative (roundPattern P.significandBits j n) := by
  have hinf := Format.infPattern_lt_signBit (f := P.format)
  have hge := h.ge
  have hlt := h.lt
  have hlo := lo.isLt
  have hpattern : roundPattern P.significandBits j n = e * 2 ^ P.significandBits +
      roundShift (hi.toNat * 2 ^ P.typeWidth + lo.toNat) P.typeWidth := by
    rw [h.roundPattern_normal (by omega)]
    congr 2
    omega
  have hdiv : (hi.toNat * 2 ^ P.typeWidth + lo.toNat) / 2 ^ P.typeWidth = hi.toNat := by
    rw [Nat.mul_comm, Nat.mul_add_div (Nat.two_pow_pos _), Nat.div_eq_of_lt hlo, Nat.add_zero]
  have hhige : 2 ^ P.significandBits ≤ hi.toNat := by
    rw [← hdiv, Nat.le_div_iff_mul_le (Nat.two_pow_pos _), ← Nat.pow_add]
    exact hge
  have hhilt : hi.toNat < 2 * 2 ^ P.significandBits := by
    rw [← hdiv, Nat.div_lt_iff_lt_mul (Nat.two_pow_pos _), Nat.mul_assoc, ← Nat.pow_add,
      ← Nat.pow_succ']
    exact hlt
  have hlow := le_roundShift (hi.toNat * 2 ^ P.typeWidth + lo.toNat) P.typeWidth
  have hhigh := roundShift_le (hi.toNat * 2 ^ P.typeWidth + lo.toNat) P.typeWidth
  rw [hdiv] at hlow hhigh
  unfold mulPack Format.pack
  rw [hpattern, P.format_infPattern]
  rcases Nat.lt_or_ge (e + 1) P.maxExponent with hfinite | hover
  · obtain ⟨hfields, hfield⟩ := fields_toNat hi hfinite
    have hhead : (hi &&& P.significandMask |||
        BitVec.ofInt P.typeWidth ((e : Int) + 1) <<< P.significandBits).toNat =
          e * 2 ^ P.significandBits + hi.toNat := by
      rw [← Int.natCast_succ, hfields, Nat.mod_eq_sub_mod hhige, Nat.mod_eq_of_lt (by omega),
        Nat.add_mul]
      omega
    have heven : e * 2 ^ P.significandBits % 2 = 0 :=
      Nat.mod_eq_zero_of_dvd
        (Dvd.dvd.mul_left (dvd_pow_self 2 (Nat.ne_of_gt P.format.significandBits_pos)) e)
    rw [Nat.add_mul, P.format_infPattern] at hfield
    rw [P.format_infPattern] at hinf
    refine ⟨mulRound (if negative then P.signBit else 0#P.typeWidth)
      (hi &&& P.significandMask |||
        BitVec.ofInt P.typeWidth ((e : Int) + 1) <<< P.significandBits) lo, ?_, ?_⟩
    · rw [if_neg (by omega), if_neg (by omega)]
      rfl
    · rw [mulRound_toNat negative (by rw [hhead]; omega), hhead, Nat.add_mul, Nat.add_assoc,
        roundShift_add_even_mul _ _ _ heven, Nat.min_eq_left (by omega)]
  · refine ⟨P.infRep ||| if negative then P.signBit else 0#P.typeWidth, if_pos (by omega), ?_⟩
    have hcap : P.maxExponent * 2 ^ P.significandBits ≤ (e + 1) * 2 ^ P.significandBits :=
      Nat.mul_le_mul_right _ hover
    rw [or_sign_toNat negative (by rw [P.infRep_toNat]; exact hinf), P.infRep_toNat,
      P.format_infPattern]
    rw [Nat.add_mul] at hcap
    omega

/-- The double-width product is rounded to the nearest pattern of the result
it stands for. -/
theorem mulPack_ok (negative : Bool) {hi lo : P.Rep} {n t i j : Nat} {e : Int}
    (h : Normalised P.significandBits P.typeWidth (hi.toNat * 2 ^ P.typeWidth + lo.toNat)
      (n * 2 ^ i) t)
    (he : e = P.typeWidth + t + 1 - (j + i)) (hlow : -2 ^ 20 ≤ e) :
    ∃ r : P.Rep, mulPack (if negative then P.signBit else 0#P.typeWidth) e hi lo = .ok r ∧
      r.toNat = P.format.pack negative (roundPattern P.significandBits j n) := by
  rw [← roundPattern_mul_two_pow P.significandBits j n i]
  rcases Int.lt_or_le 0 e with hpos | hsub
  · obtain ⟨k, rfl⟩ : ∃ k : Nat, e = (k : Int) + 1 := ⟨(e - 1).toNat, by omega⟩
    exact mulPack_normal negative h (by omega)
  · exact mulPack_subnormal negative h (by push_cast; omega) hlow hsub

/-! ## The whole routine -/

theorem productSign_eq (a b : P.Rep) :
    (a ^^^ b) &&& P.signBit =
      if (isNegative a ^^ isNegative b) then P.signBit else 0#P.typeWidth := by
  rw [xor_and_signBit]
  cases isNegative a <;> cases isNegative b <;> rfl

/-- The double-width product has its leading bit in place, or one place
below it. -/
theorem wideMultiply_normalised {ma ta mb tb : Nat} {x y : P.Rep}
    (ha : Unpacked P.significandBits ma x.toNat ta)
    (hb : Unpacked P.significandBits mb y.toNat tb) :
    ∃ hi lo : P.Rep, wideMultiply P x (y <<< P.exponentBits) = (hi, lo) ∧
      (hi &&& P.implicitBit ≠ 0#P.typeWidth →
        Normalised P.significandBits P.typeWidth (hi.toNat * 2 ^ P.typeWidth + lo.toNat)
          (magnitude P.significandBits ma * magnitude P.significandBits mb *
            2 ^ (2 * P.significandBits + P.exponentBits)) (ta + tb)) ∧
      (hi &&& P.implicitBit = 0#P.typeWidth →
        ∃ hi' lo' : P.Rep, wideLeftShift hi lo 1 = .ok (hi', lo') ∧
          Normalised P.significandBits P.typeWidth (hi'.toNat * 2 ^ P.typeWidth + lo'.toNat)
            (magnitude P.significandBits ma * magnitude P.significandBits mb *
              2 ^ (2 * P.significandBits + P.exponentBits + 1)) (ta + tb)) := by
  have hw := P.typeWidth_eq
  have hebits := P.exponentBits_bounds
  have hpow : 2 ^ P.typeWidth = 2 ^ (P.significandBits + 1) * 2 ^ P.exponentBits := by
    rw [← Nat.pow_add, hw, Nat.add_right_comm]
  have hshift : (y <<< P.exponentBits).toNat = y.toNat * 2 ^ P.exponentBits := by
    apply Bits.toNat_shiftLeft_of_lt
    rw [hpow]
    exact Nat.mul_lt_mul_of_pos_right hb.lt (Nat.two_pow_pos _)
  have hproduct := wideMultiply_toNat x (y <<< P.exponentBits)
  rw [hshift, ← Nat.mul_assoc] at hproduct
  obtain ⟨hge, hlt⟩ := ha.mul_bounds hb
  -- `2 ^ (significandBits + typeWidth)` is twice the least product
  have hlead : 2 ^ (P.significandBits + P.typeWidth) =
      2 * (2 ^ (2 * P.significandBits) * 2 ^ P.exponentBits) := by
    rw [← Nat.pow_add, ← Nat.pow_succ']
    congr 1
    omega
  have hlow : 2 ^ (2 * P.significandBits) * 2 ^ P.exponentBits ≤
      x.toNat * y.toNat * 2 ^ P.exponentBits := Nat.mul_le_mul_right _ hge
  have hhigh : x.toNat * y.toNat * 2 ^ P.exponentBits <
      4 * (2 ^ (2 * P.significandBits) * 2 ^ P.exponentBits) := by
    rw [← Nat.mul_assoc, ← Nat.pow_add 2 2, Nat.add_comm 2]
    exact Nat.mul_lt_mul_of_pos_right hlt (Nat.two_pow_pos _)
  have hvalue : magnitude P.significandBits ma * magnitude P.significandBits mb *
      2 ^ (2 * P.significandBits + P.exponentBits) =
        x.toNat * y.toNat * 2 ^ P.exponentBits * 2 ^ (ta + tb) := by
    rw [Nat.pow_add, ← Nat.mul_assoc, ha.mul_value hb, Nat.mul_right_comm]
  generalize wideMultiply P x (y <<< P.exponentBits) = product at *
  obtain ⟨hi, lo⟩ := product
  refine ⟨hi, lo, rfl, ?_⟩
  dsimp only at hproduct
  have hlo := lo.isLt
  generalize x.toNat * y.toNat * 2 ^ P.exponentBits = M at *
  have hdiv : hi.toNat = M / 2 ^ P.typeWidth := by
    rw [← hproduct, Nat.mul_comm, Nat.mul_add_div (Nat.two_pow_pos _), Nat.div_eq_of_lt hlo,
      Nat.add_zero]
  have hsmall : hi.toNat < 2 * 2 ^ P.significandBits := by
    rw [hdiv, Nat.div_lt_iff_lt_mul (Nat.two_pow_pos _), Nat.mul_assoc, ← Nat.pow_add]
    omega
  have hbit : hi &&& P.implicitBit = 0#P.typeWidth ↔ M < 2 ^ (P.significandBits + P.typeWidth) := by
    rw [Bits.and_singleBit_eq_zero_iff P.implicitBit_toNat, Nat.pow_add,
      ← Nat.div_lt_iff_lt_mul (Nat.two_pow_pos _), ← hdiv]
    constructor
    · intro h
      by_contra hge'
      rw [Nat.div_eq_of_lt_le (k := 1) (by omega) (by omega)] at h
      omega
    · intro h
      rw [Nat.div_eq_of_lt h]
  rw [ne_eq, hbit, hproduct]
  constructor
  · intro h
    have hnorm := (Normalised.exact (p := P.significandBits) (g := P.typeWidth) (s := M)
      (by omega) (by rw [Nat.pow_succ]; omega)).scale (ta + tb)
    rwa [Nat.zero_add, ← hvalue] at hnorm
  · intro h
    obtain ⟨hi', lo', hleft, hsum⟩ := wideLeftShift_ok hi lo (show (1 : Int) = (1 : Nat) from rfl)
      Nat.one_pos (by omega) (by
        have hcap : 2 ^ (P.significandBits + 2) ≤ 2 ^ P.typeWidth :=
          Nat.pow_le_pow_right (by decide) (by omega)
        rw [Nat.pow_add] at hcap
        omega)
    refine ⟨hi', lo', hleft, ?_⟩
    rw [hproduct, Nat.pow_one] at hsum
    have hnorm := (Normalised.exact (p := P.significandBits) (g := P.typeWidth) (s := M * 2)
      (by omega) (by rw [Nat.pow_succ]; omega)).scale (ta + tb)
    rw [hsum, Nat.pow_succ, ← Nat.mul_assoc, hvalue, Nat.mul_right_comm]
    rwa [Nat.zero_add] at hnorm

/-- The general case. -/
theorem mulGeneral_ok {a b : P.Rep} (ha : IsNonzeroFinite a) (hb : IsNonzeroFinite b) :
    ∃ r : P.Rep, mulGeneral a b = .ok r ∧
      r.toNat = P.format.pack (isNegative a ^^ isNegative b)
        (roundPattern P.significandBits P.format.scale
          (magnitude P.significandBits (a.toNat % P.format.signBit) *
            magnitude P.significandBits (b.toNat % P.format.signBit))) := by
  obtain ⟨sa, sb, ta, tb, scale, hsig, hua, hub, hta, htb, hexp⟩ := mulSignificands_ok ha hb
  have hw := P.typeWidth_eq
  have hpbits := P.significandBits_bounds
  have hmax := P.maxExponent_bounds
  have hbias : P.exponentBias ≤ P.maxExponent := Nat.div_le_self _ _
  have hbias' : 1 ≤ P.exponentBias := by cases P <;> decide
  have hea := (exponent_toNat a).2
  have heb := (exponent_toNat b).2
  have hE := productExponentOf_eq a b scale (by omega) (by omega)
  have hscale : P.format.scale = P.exponentBias + P.significandBits - 1 := by
    rw [Format.scale, P.format_bias]
    rfl
  obtain ⟨hi, lo, hmul, hset, hclear⟩ := wideMultiply_normalised hua hub
  unfold mulGeneral
  rw [hsig, productSign_eq]
  simp only [ok_bind, hmul]
  by_cases hbit : hi &&& P.implicitBit = 0#P.typeWidth
  · obtain ⟨hi', lo', hleft, hnorm⟩ := hclear hbit
    rw [if_neg (not_not.2 hbit), hleft]
    exact mulPack_ok _ hnorm (by push_cast; omega) (by omega)
  · rw [if_pos hbit]
    exact mulPack_ok _ (hset hbit) (by push_cast; omega) (by omega)

/-- Which finite operands are special: the zeros. -/
theorem mulSpecialOperands_of_finite {a b : P.Rep} (ha : P.format.IsFinite a.toNat)
    (hb : P.format.IsFinite b.toNat) :
    mulSpecialOperands a b =
      if a.toNat % P.format.signBit = 0 ∨ b.toNat % P.format.signBit = 0
      then some ((a ^^^ b) &&& P.signBit) else none := by
  have hfield : ∀ x : P.Rep, x.toNat % P.format.signBit = 0 → (exponentField x).toNat = 0 := by
    intro x hx
    rw [exponentField_toNat, hx, Nat.zero_div]
  unfold mulSpecialOperands
  simp only [not_abs_gt_infRep ha, not_abs_gt_infRep hb, abs_ne_infRep ha, abs_ne_infRep hb,
    if_false, abs_eq_zero_iff]
  by_cases hza : a.toNat % P.format.signBit = 0
  · rw [if_pos (hasSpecialExponent_of_denormal (Or.inl (hfield a hza))), if_pos hza,
      if_pos (Or.inl hza)]
  · by_cases hzb : b.toNat % P.format.signBit = 0
    · rw [if_pos (hasSpecialExponent_of_denormal (Or.inr (hfield b hzb))), if_neg hza, if_pos hzb,
        if_pos (Or.inr hzb)]
    · rw [if_neg hza, if_neg hzb, ite_self, if_neg (not_or.2 ⟨hza, hzb⟩)]

/-- On finite operands `__mulXf3__` runs without a fault, and returns the exact
product, rounded once.  A zero product takes its sign from the operands. -/
theorem mulXf3_ok {a b : P.Rep} (ha : P.format.IsFinite a.toNat) (hb : P.format.IsFinite b.toNat) :
    ∃ r : P.Rep, mulXf3 a b = .ok r ∧
      r.toNat = P.format.pack (isNegative a ^^ isNegative b)
        (roundPattern P.significandBits P.format.scale
          (P.format.units a.toNat * P.format.units b.toNat).natAbs) := by
  unfold mulXf3
  rw [mulSpecialOperands_of_finite ha hb, Int.natAbs_mul, Format.natAbs_units, Format.natAbs_units]
  by_cases hzero : a.toNat % P.format.signBit = 0 ∨ b.toNat % P.format.signBit = 0
  · have hproduct : magnitude P.significandBits (a.toNat % P.format.signBit) *
        magnitude P.significandBits (b.toNat % P.format.signBit) = 0 := by
      rcases hzero with h | h <;> simp [h]
    refine ⟨(a ^^^ b) &&& P.signBit, by rw [if_pos hzero]; rfl, ?_⟩
    rw [productSign_eq, sign_toNat, P.format_significandBits, hproduct, roundPattern_zero,
      Format.pack, Nat.zero_min, Nat.add_zero]
  · rw [if_neg hzero]
    exact mulGeneral_ok ⟨by omega, ha.2⟩ ⟨by omega, hb.2⟩

/-- The sign of a product that is not zero. -/
theorem units_mul_sign {a b : P.Rep}
    (hnonzero : P.format.units a.toNat * P.format.units b.toNat ≠ 0) :
    (isNegative a ^^ isNegative b) =
      decide (P.format.units a.toNat * P.format.units b.toNat < 0) := by
  rw [units_eq, units_eq] at *
  have hpos : 0 < magnitude P.significandBits (a.toNat % P.format.signBit) *
      magnitude P.significandBits (b.toNat % P.format.signBit) := by
    apply Nat.pos_of_ne_zero
    intro h
    apply hnonzero
    have hcast : (magnitude P.significandBits (a.toNat % P.format.signBit) : Int) *
        magnitude P.significandBits (b.toNat % P.format.signBit) = 0 := by exact_mod_cast h
    cases isNegative a <;> cases isNegative b <;> simp [hcast]
  have hcast : 0 < (magnitude P.significandBits (a.toNat % P.format.signBit) : Int) *
      magnitude P.significandBits (b.toNat % P.format.signBit) := by exact_mod_cast hpos
  cases isNegative a <;> cases isNegative b <;> simp <;> omega

/-- A product that is not zero is rounded to nearest, ties to even. -/
theorem mulXf3_roundsTo {a b : P.Rep} (ha : P.format.IsFinite a.toNat)
    (hb : P.format.IsFinite b.toNat)
    (hnonzero : P.format.units a.toNat * P.format.units b.toNat ≠ 0) :
    ∃ r : P.Rep, mulXf3 a b = .ok r ∧
      P.format.RoundsTo (P.format.value a.toNat * P.format.value b.toNat) r.toNat := by
  obtain ⟨r, hr, hrNat⟩ := mulXf3_ok ha hb
  refine ⟨r, hr, ?_⟩
  have h := P.format.pack_roundsTo (P.format.units a.toNat * P.format.units b.toNat)
    P.format.scale
  rw [pow_add, Int.cast_mul, mul_div_mul_comm, ← units_mul_sign hnonzero] at h
  rw [hrNat]
  exact h

end Cheesecloth.Builtins.SoftFloat
