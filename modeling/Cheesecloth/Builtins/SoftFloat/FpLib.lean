import Cheesecloth.CodeLib.Bits
import Cheesecloth.CodeLib.Checked
import Cheesecloth.CodeLib.Interchange
import Cheesecloth.CodeLib.Significand

/-!
# The model of `fp_lib.h` and `fp_mode.c`

The soft-float routines are written once, over the macros of `fp_lib.h`, and
compiled for each precision.  `Precision` is the macro that selects one, and
the other macros are functions of it.  A `fp_t` is its bit pattern, so `toRep`
and `fromRep` are the identity and are not written.

* `normalize`, `wideMultiply`, `wideLeftShift` and `wideRightShiftWithSticky`
  are transcribed, each with the number that it computes.
* `shiftRightSticky` is the shift that the routines spell out wherever they
  align or denormalise a significand.  It is `stickyShift`.

`QUAD_PRECISION` is left out.  It needs a 113-bit `long double`, which the
x86_64 build does not have.
-/

namespace Cheesecloth.Builtins.SoftFloat

open CodeLib CodeLib.Checked

/-! ## Macros -/

/-- `SINGLE_PRECISION` or `DOUBLE_PRECISION`. -/
inductive Precision where
  | single
  | double
  deriving DecidableEq, Repr

namespace Precision

/-- `sizeof(rep_t) * CHAR_BIT`. -/
def typeWidth : Precision → Nat
  | single => 32
  | double => 64

def significandBits : Precision → Nat
  | single => 23
  | double => 52

/-- `rep_t`. -/
abbrev Rep (P : Precision) : Type := BitVec P.typeWidth

variable (P : Precision)

def exponentBits : Nat := P.typeWidth - P.significandBits - 1

/-- `(1 << exponentBits) - 1`. -/
def maxExponent : Nat := 2 ^ P.exponentBits - 1

/-- `maxExponent >> 1`. -/
def exponentBias : Nat := P.maxExponent / 2

def implicitBit : P.Rep := 1#P.typeWidth <<< P.significandBits

def significandMask : P.Rep := P.implicitBit - 1#P.typeWidth

def signBit : P.Rep := 1#P.typeWidth <<< (P.significandBits + P.exponentBits)

def absMask : P.Rep := P.signBit - 1#P.typeWidth

def exponentMask : P.Rep := P.absMask ^^^ P.significandMask

def infRep : P.Rep := P.exponentMask

def quietBit : P.Rep := P.implicitBit >>> 1

def qnanRep : P.Rep := P.exponentMask ||| P.quietBit

/-- The format that the bit patterns of the precision encode. -/
def format : Format where
  significandBits := P.significandBits
  exponentBits := P.exponentBits
  significandBits_pos := by cases P <;> decide
  exponentBits_gt_one := by cases P <;> decide

end Precision

/-! ## Utility routines -/

/-- `CRT_FE_ROUND_MODE`. -/
inductive RoundMode where
  | toNearest
  | downward
  | upward
  | towardZero
  deriving DecidableEq, Repr

/-- `__fe_getround` of the generic `fp_mode.c`. -/
def feGetround : RoundMode := .toNearest

section Utilities

variable {P : Precision}

/-- `rep_clz`. -/
def repClz (a : P.Rep) : Checked Int := clz a

/-- `rep >> significandBits & maxExponent`. -/
def exponentField (rep : P.Rep) : P.Rep :=
  rep >>> P.significandBits &&& BitVec.ofNat P.typeWidth P.maxExponent

/-- `normalize`: the shifted significand and the exponent that is returned. -/
def normalize (significand : P.Rep) : Checked (P.Rep × Int) := do
  let shift := (← repClz significand) - (← repClz P.implicitBit)
  return (← shl significand shift, 1 - shift)

/-- `x >> count | (x << (typeWidth - count) != 0)`. -/
def shiftRightSticky (x : P.Rep) (count : Int) : Checked P.Rep := do
  let sticky := decide ((← shl x (P.typeWidth - count)) ≠ 0#P.typeWidth)
  return (← shr x count) ||| (if sticky then 1#P.typeWidth else 0#P.typeWidth)

/-- `wideMultiply` of single precision, through a 64-bit product. -/
def wideMultiplySingle (a b : BitVec 32) : BitVec 32 × BitVec 32 :=
  let product : BitVec 64 := a.setWidth 64 * b.setWidth 64
  ((product >>> 32).setWidth 32, product.setWidth 32)

def loWord (a : BitVec 64) : BitVec 64 := a &&& 0xffffffff#64

def hiWord (a : BitVec 64) : BitVec 64 := a >>> 32

/-- `wideMultiply` of double precision, through the products of 32-bit
halves. -/
def wideMultiplyDouble (a b : BitVec 64) : BitVec 64 × BitVec 64 :=
  let plolo := loWord a * loWord b
  let plohi := loWord a * hiWord b
  let philo := hiWord a * loWord b
  let phihi := hiWord a * hiWord b
  let r0 := loWord plolo
  let r1 := hiWord plolo + loWord plohi + loWord philo
  (hiWord plohi + hiWord philo + hiWord r1 + phihi, r0 + (r1 <<< 32))

/-- `wideMultiply`: `*hi` and `*lo`. -/
def wideMultiply : (P : Precision) → P.Rep → P.Rep → P.Rep × P.Rep
  | .single, a, b => wideMultiplySingle a b
  | .double, a, b => wideMultiplyDouble a b

/-- `wideLeftShift`: `*hi` and `*lo`. -/
def wideLeftShift (hi lo : P.Rep) (count : Int) : Checked (P.Rep × P.Rep) := do
  let hi := (← shl hi count) ||| (← shr lo (P.typeWidth - count))
  return (hi, ← shl lo count)

/-- `wideRightShiftWithSticky`: `*hi` and `*lo`. -/
def wideRightShiftWithSticky (hi lo : P.Rep) (count : Nat) : Checked (P.Rep × P.Rep) :=
  if count < P.typeWidth then do
    let sticky := decide ((← shl lo (P.typeWidth - count)) ≠ 0#P.typeWidth)
    let lo := (← shl hi (P.typeWidth - count)) ||| (← shr lo count) |||
      (if sticky then 1#P.typeWidth else 0#P.typeWidth)
    return (← shr hi count, lo)
  else if count < 2 * P.typeWidth then do
    let sticky := decide (((← shl hi (2 * P.typeWidth - count)) ||| lo) ≠ 0#P.typeWidth)
    let lo := (← shr hi (count - P.typeWidth)) |||
      (if sticky then 1#P.typeWidth else 0#P.typeWidth)
    return (0#P.typeWidth, lo)
  else
    let sticky := decide ((hi ||| lo) ≠ 0#P.typeWidth)
    return (0#P.typeWidth, if sticky then 1#P.typeWidth else 0#P.typeWidth)

end Utilities

/-! ## The macros as numbers -/

namespace Precision

variable (P : Precision)

theorem typeWidth_eq : P.typeWidth = P.significandBits + P.exponentBits + 1 := by
  cases P <;> rfl

theorem typeWidth_pos : 0 < P.typeWidth := by
  cases P <;> decide

theorem exponentBits_bounds : 8 ≤ P.exponentBits ∧ P.exponentBits ≤ 11 := by
  cases P <;> decide

theorem significandBits_bounds : 23 ≤ P.significandBits ∧ P.significandBits ≤ 52 := by
  cases P <;> decide

theorem maxExponent_bounds : 255 ≤ P.maxExponent ∧ P.maxExponent < 2048 := by
  cases P <;> decide

@[simp] theorem format_significandBits : P.format.significandBits = P.significandBits := rfl

@[simp] theorem format_exponentBits : P.format.exponentBits = P.exponentBits := rfl

theorem format_signBit : P.format.signBit = 2 ^ (P.significandBits + P.exponentBits) := rfl

theorem format_infPattern : P.format.infPattern = P.maxExponent * 2 ^ P.significandBits := rfl

theorem format_bias : P.format.bias = P.exponentBias := by
  cases P <;> rfl

theorem two_pow_typeWidth : 2 ^ P.typeWidth = 2 * P.format.signBit := by
  rw [format_signBit, typeWidth_eq, Nat.pow_succ']

@[simp] theorem implicitBit_toNat : P.implicitBit.toNat = 2 ^ P.significandBits := by
  cases P <;> rfl

@[simp] theorem significandMask_toNat :
    P.significandMask.toNat = 2 ^ P.significandBits - 1 := by
  cases P <;> rfl

@[simp] theorem signBit_toNat :
    P.signBit.toNat = 2 ^ (P.significandBits + P.exponentBits) := by
  cases P <;> rfl

@[simp] theorem absMask_toNat :
    P.absMask.toNat = 2 ^ (P.significandBits + P.exponentBits) - 1 := by
  cases P <;> rfl

@[simp] theorem infRep_toNat : P.infRep.toNat = P.format.infPattern := by
  cases P <;> rfl

end Precision

/-! ## The fields of a word -/

section Fields

variable {P : Precision}

theorem toNat_lt (a : P.Rep) : a.toNat < 2 * P.format.signBit :=
  Bits.toNat_lt_twice P.typeWidth_eq a

theorem abs_toNat (a : P.Rep) : (a &&& P.absMask).toNat = a.toNat % P.format.signBit :=
  Bits.toNat_and_lowMask P.absMask_toNat

theorem abs_eq_zero_iff (a : P.Rep) :
    a &&& P.absMask = 0#P.typeWidth ↔ a.toNat % P.format.signBit = 0 := by
  rw [← BitVec.toNat_inj, abs_toNat, BitVec.toNat_zero]

theorem not_abs_gt_infRep {a : P.Rep} (ha : P.format.IsFinite a.toNat) :
    ¬ (a &&& P.absMask > P.infRep) := by
  rw [gt_iff_lt, BitVec.lt_def, abs_toNat, P.infRep_toNat]
  exact Nat.not_lt.2 (Nat.le_of_lt ha.2)

theorem abs_ne_infRep {a : P.Rep} (ha : P.format.IsFinite a.toNat) :
    a &&& P.absMask ≠ P.infRep := by
  intro h
  have hNat := congrArg BitVec.toNat h
  rw [abs_toNat, P.infRep_toNat] at hNat
  exact Nat.ne_of_lt ha.2 hNat

theorem exponentField_toNat (a : P.Rep) :
    (exponentField a).toNat = a.toNat % P.format.signBit / 2 ^ P.significandBits := by
  have hmask : (BitVec.ofNat P.typeWidth P.maxExponent).toNat = 2 ^ P.exponentBits - 1 := by
    cases P <;> rfl
  unfold exponentField
  rw [Bits.toNat_and_lowMask hmask, Bits.toNat_shiftRight, P.format_signBit, Nat.pow_add,
    Nat.mod_mul_right_div_self]

theorem exponentField_le (a : P.Rep) : (exponentField a).toNat ≤ P.maxExponent := by
  have hlt := Nat.mod_lt a.toNat (show 0 < P.format.signBit from Nat.two_pow_pos _)
  rw [exponentField_toNat, Precision.maxExponent, Nat.le_sub_one_iff_lt (Nat.two_pow_pos _),
    Nat.div_lt_iff_lt_mul (Nat.two_pow_pos _), ← Nat.pow_add, Nat.add_comm]
  exact hlt

theorem significandField_toNat (a : P.Rep) :
    (a &&& P.significandMask).toNat = a.toNat % P.format.signBit % 2 ^ P.significandBits := by
  rw [Bits.toNat_and_lowMask P.significandMask_toNat, P.format_signBit,
    Nat.mod_mod_of_dvd _ (Nat.pow_dvd_pow 2 (Nat.le_add_right _ _))]

/-- The sign of a word as a truth value. -/
def isNegative (a : P.Rep) : Bool := decide (P.format.signBit ≤ a.toNat)

/-- The value of a word by its sign and its pattern. -/
theorem units_eq (a : P.Rep) :
    P.format.units a.toNat = if isNegative a
      then -(magnitude P.significandBits (a.toNat % P.format.signBit) : Int)
      else (magnitude P.significandBits (a.toNat % P.format.signBit) : Int) := by
  unfold Format.units isNegative
  rcases Nat.lt_or_ge a.toNat P.format.signBit with h | h
  · rw [if_pos h, if_neg (by simpa using h)]
    rfl
  · rw [if_neg (Nat.not_lt.2 h), if_pos (by simpa using h)]
    rfl

theorem testBit_sign (a : P.Rep) :
    a.toNat.testBit (P.significandBits + P.exponentBits) = isNegative a := by
  have hlt := toNat_lt a
  unfold isNegative
  rw [P.format_signBit] at *
  rw [Nat.testBit_eq_decide_div_mod_eq, decide_eq_decide]
  rcases Nat.lt_or_ge a.toNat (2 ^ (P.significandBits + P.exponentBits)) with h | h
  · rw [Nat.div_eq_of_lt h]
    omega
  · rw [Nat.div_eq_of_lt_le (k := 1) (by omega) (by omega)]
    omega

theorem and_signBit (a : P.Rep) :
    a &&& P.signBit = if isNegative a then P.signBit else 0#P.typeWidth := by
  apply BitVec.eq_of_toNat_eq
  rw [BitVec.toNat_and, P.signBit_toNat, Nat.and_two_pow, testBit_sign]
  cases isNegative a <;> simp

theorem xor_and_signBit (a b : P.Rep) :
    (a ^^^ b) &&& P.signBit =
      if isNegative a = isNegative b then 0#P.typeWidth else P.signBit := by
  apply BitVec.eq_of_toNat_eq
  rw [BitVec.toNat_and, BitVec.toNat_xor, P.signBit_toNat, Nat.and_two_pow, Nat.testBit_xor,
    testBit_sign, testBit_sign]
  cases isNegative a <;> cases isNegative b <;> simp

/-- A word that is put together from a sign and a pattern. -/
theorem or_sign_toNat {x : P.Rep} (negative : Bool) (hx : x.toNat < P.format.signBit) :
    (x ||| if negative then P.signBit else 0#P.typeWidth).toNat =
      (if negative then P.format.signBit else 0) + x.toNat :=
  Bits.toNat_or_topBit P.signBit_toNat negative hx

/-- A pattern that is put together from a significand and an exponent. -/
theorem fields_toNat (x : P.Rep) {e : Nat} (he : e < P.maxExponent) :
    (x &&& P.significandMask ||| BitVec.ofInt P.typeWidth e <<< P.significandBits).toNat =
        x.toNat % 2 ^ P.significandBits + e * 2 ^ P.significandBits ∧
      e * 2 ^ P.significandBits + 2 ^ P.significandBits ≤ P.format.infPattern := by
  have hinf := Format.infPattern_lt_signBit (f := P.format)
  have hpow := Nat.two_pow_pos P.significandBits
  have hfield : e * 2 ^ P.significandBits + 2 ^ P.significandBits ≤ P.format.infPattern := by
    rw [P.format_infPattern, ← Nat.succ_mul]
    exact Nat.mul_le_mul_right _ he
  have hsmall : (BitVec.ofInt P.typeWidth e).toNat = e := by
    have := P.maxExponent_bounds
    have hw : 2 ^ 11 ≤ 2 ^ P.typeWidth := by cases P <;> decide
    rw [BitVec.ofInt_natCast, BitVec.toNat_ofNat, Nat.mod_eq_of_lt (by omega)]
  have hexp : (BitVec.ofInt P.typeWidth e <<< P.significandBits).toNat =
      e * 2 ^ P.significandBits := by
    rw [Bits.toNat_shiftLeft_of_lt, hsmall]
    rw [hsmall, P.two_pow_typeWidth]
    omega
  have hsig : (x &&& P.significandMask).toNat = x.toNat % 2 ^ P.significandBits :=
    Bits.toNat_and_lowMask P.significandMask_toNat
  refine ⟨?_, hfield⟩
  rw [Bits.toNat_or_disjoint (hsig ▸ Nat.mod_lt _ (Nat.two_pow_pos _)) hexp, hsig, hexp]

/-- The implicit bit is set over a significand below it, and kept in one that
has it. -/
theorem or_implicitBit_toNat_of_lt {s : P.Rep} (h : s.toNat < 2 ^ P.significandBits) :
    (s ||| P.implicitBit).toNat = 2 ^ P.significandBits + s.toNat := by
  rw [Bits.toNat_or_disjoint (c := 1) h (by rw [P.implicitBit_toNat, Nat.one_mul]),
    P.implicitBit_toNat, Nat.add_comm]

theorem or_implicitBit_toNat_of_ge {s : P.Rep} (hge : 2 ^ P.significandBits ≤ s.toNat)
    (hlt : s.toNat < 2 ^ (P.significandBits + 1)) : (s ||| P.implicitBit).toNat = s.toNat := by
  rw [Nat.pow_succ] at hlt
  have hor := Nat.two_pow_add_eq_or_of_lt
    (show s.toNat - 2 ^ P.significandBits < 2 ^ P.significandBits by omega) 1
  rw [Nat.mul_one, Nat.add_sub_of_le hge] at hor
  rw [BitVec.toNat_or, P.implicitBit_toNat, Nat.or_comm]
  conv_lhs => rw [hor]
  rw [← Nat.or_assoc, Nat.or_self, ← hor]

end Fields

/-! ## The routines as numbers -/

section Specifications

variable {P : Precision}

/-- A denormal significand is shifted up to the implicit bit. -/
theorem normalize_ok {significand : P.Rep} (h0 : 0 < significand.toNat)
    (hlt : significand.toNat < 2 ^ P.significandBits) :
    ∃ s : P.Rep, normalize significand =
        .ok (s, 1 - ((P.significandBits - significand.toNat.log2 : Nat) : Int)) ∧
      s.toNat = significand.toNat * 2 ^ (P.significandBits - significand.toNat.log2) := by
  have hw := P.typeWidth_eq
  have he := P.exponentBits_bounds
  have hlog : significand.toNat.log2 < P.significandBits :=
    (Nat.log2_lt (Nat.ne_of_gt h0)).2 hlt
  have hclz := clz_ok h0
    (show P.typeWidth - 1 - significand.toNat.log2 + significand.toNat.log2 + 1 = P.typeWidth by
      omega)
  have himplicit : clz P.implicitBit = .ok ((P.typeWidth - 1 - P.significandBits : Nat) : Int) := by
    refine clz_ok ?_ ?_
    · rw [P.implicitBit_toNat]
      exact Nat.two_pow_pos _
    · rw [P.implicitBit_toNat, Nat.log2_two_pow]
      omega
  have hshift : ((P.typeWidth - 1 - significand.toNat.log2 : Nat) : Int) -
      ((P.typeWidth - 1 - P.significandBits : Nat) : Int) =
        ((P.significandBits - significand.toNat.log2 : Nat) : Int) := by
    omega
  refine ⟨significand <<< (P.significandBits - significand.toNat.log2), ?_, ?_⟩
  · unfold normalize repClz
    rw [hclz, himplicit, ok_bind, ok_bind, hshift]
    dsimp only
    rw [shl_ok _ rfl (by omega)]
    rfl
  · apply Bits.toNat_shiftLeft_of_lt
    exact Nat.lt_of_lt_of_le (lead_bit h0 (Nat.le_of_lt hlog)).2
      (Nat.pow_le_pow_right (by decide) (by omega))

theorem shiftRightSticky_ok (x : P.Rep) {count : Int} {k : Nat} (hcount : count = k)
    (hpos : 0 < k) (hk : k < P.typeWidth) :
    ∃ r : P.Rep, shiftRightSticky x count = .ok r ∧ r.toNat = stickyShift x.toNat k := by
  have hleft : (P.typeWidth : Int) - count = ((P.typeWidth - k : Nat) : Int) := by omega
  refine ⟨x >>> k ||| if decide (x <<< (P.typeWidth - k) ≠ 0#P.typeWidth) then 1#P.typeWidth
    else 0#P.typeWidth, ?_, ?_⟩
  · unfold shiftRightSticky
    rw [shl_ok x hleft (by omega), ok_bind, shr_ok x hcount hk]
    rfl
  · apply Bits.toNat_shiftRight_or_sticky P.typeWidth_pos
    rw [decide_eq_true_iff, ne_eq, Bits.shiftLeft_eq_zero_iff (Nat.le_of_lt hk)]

theorem loWord_toNat (a : BitVec 64) : (loWord a).toNat = a.toNat % 2 ^ 32 :=
  Bits.toNat_and_lowMask rfl

theorem hiWord_toNat (a : BitVec 64) : (hiWord a).toNat = a.toNat / 2 ^ 32 :=
  Bits.toNat_shiftRight a 32

theorem wideMultiplySingle_toNat (a b : BitVec 32) :
    (wideMultiplySingle a b).1.toNat * 2 ^ 32 + (wideMultiplySingle a b).2.toNat =
      a.toNat * b.toNat := by
  have ha := a.isLt
  have hb := b.isLt
  have hlt : a.toNat * b.toNat < 2 ^ 64 := by nlinarith
  unfold wideMultiplySingle
  rw [BitVec.toNat_setWidth, BitVec.toNat_setWidth, Bits.toNat_shiftRight, BitVec.toNat_mul,
    BitVec.toNat_setWidth, BitVec.toNat_setWidth, Nat.mod_eq_of_lt (show a.toNat < 2 ^ 64 by omega),
    Nat.mod_eq_of_lt (show b.toNat < 2 ^ 64 by omega), Nat.mod_eq_of_lt hlt]
  omega

/-- The products of the halves, summed with their carries. -/
theorem wideMultiplyDouble_toNat (a b : BitVec 64) :
    (wideMultiplyDouble a b).1.toNat * 2 ^ 64 + (wideMultiplyDouble a b).2.toNat =
      a.toNat * b.toNat := by
  have hmul : ∀ x y : BitVec 64, x.toNat < 2 ^ 32 → y.toNat < 2 ^ 32 →
      (x * y).toNat = x.toNat * y.toNat ∧ x.toNat * y.toNat ≤ (2 ^ 32 - 1) * (2 ^ 32 - 1) := by
    intro x y hx hy
    have hle : x.toNat * y.toNat ≤ (2 ^ 32 - 1) * (2 ^ 32 - 1) :=
      Nat.mul_le_mul (by omega) (by omega)
    exact ⟨by rw [BitVec.toNat_mul, Nat.mod_eq_of_lt (by omega)], hle⟩
  have hlo : ∀ x : BitVec 64, (loWord x).toNat < 2 ^ 32 := fun x => by
    rw [loWord_toNat]
    exact Nat.mod_lt _ (by decide)
  have hhi : ∀ x : BitVec 64, (hiWord x).toNat < 2 ^ 32 := fun x => by
    rw [hiWord_toNat]
    have := x.isLt
    omega
  have hll := hmul _ _ (hlo a) (hlo b)
  have hlh := hmul _ _ (hlo a) (hhi b)
  have hhl := hmul _ _ (hhi a) (hlo b)
  have hhh := hmul _ _ (hhi a) (hhi b)
  have hsplit : ∀ x : BitVec 64, x.toNat = (hiWord x).toNat * 2 ^ 32 + (loWord x).toNat := by
    intro x
    rw [hiWord_toNat, loWord_toNat]
    omega
  have hprod : a.toNat * b.toNat =
      (hiWord a).toNat * (hiWord b).toNat * 2 ^ 64 +
        ((loWord a).toNat * (hiWord b).toNat + (hiWord a).toNat * (loWord b).toNat) * 2 ^ 32 +
        (loWord a).toNat * (loWord b).toNat := by
    rw [hsplit a, hsplit b]
    ring
  rw [hprod]
  unfold wideMultiplyDouble
  simp only [hiWord_toNat, loWord_toNat, BitVec.toNat_add, BitVec.toNat_shiftLeft,
    Nat.shiftLeft_eq] at hll hlh hhl hhh ⊢
  rw [hll.1, hlh.1, hhl.1, hhh.1]
  generalize a.toNat % 2 ^ 32 * (b.toNat % 2 ^ 32) = ll at *
  generalize a.toNat % 2 ^ 32 * (b.toNat / 2 ^ 32) = lh at *
  generalize a.toNat / 2 ^ 32 * (b.toNat % 2 ^ 32) = hl at *
  generalize a.toNat / 2 ^ 32 * (b.toNat / 2 ^ 32) = hh at *
  omega

/-- The two words of `wideMultiply` are the exact product. -/
theorem wideMultiply_toNat (a b : P.Rep) :
    (wideMultiply P a b).1.toNat * 2 ^ P.typeWidth + (wideMultiply P a b).2.toNat =
      a.toNat * b.toNat := by
  cases P with
  | single => exact wideMultiplySingle_toNat a b
  | double => exact wideMultiplyDouble_toNat a b

/-- A left shift that keeps every bit of the high word. -/
theorem wideLeftShift_ok (hi lo : P.Rep) {count : Int} {k : Nat} (hcount : count = k)
    (hpos : 0 < k) (hk : k < P.typeWidth) (hfit : hi.toNat * 2 ^ k < 2 ^ P.typeWidth) :
    ∃ hi' lo' : P.Rep, wideLeftShift hi lo count = .ok (hi', lo') ∧
      hi'.toNat * 2 ^ P.typeWidth + lo'.toNat =
        (hi.toNat * 2 ^ P.typeWidth + lo.toNat) * 2 ^ k := by
  have hright : (P.typeWidth : Int) - count = ((P.typeWidth - k : Nat) : Int) := by omega
  have hpow : 2 ^ P.typeWidth = 2 ^ (P.typeWidth - k) * 2 ^ k := by
    rw [← Nat.pow_add, Nat.sub_add_cancel (Nat.le_of_lt hk)]
  have hlo := lo.isLt
  refine ⟨hi <<< k ||| lo >>> (P.typeWidth - k), lo <<< k, ?_, ?_⟩
  · unfold wideLeftShift
    rw [shl_ok hi hcount hk, shr_ok lo hright (by omega), shl_ok lo hcount hk]
    rfl
  · have hupper : (lo >>> (P.typeWidth - k)).toNat < 2 ^ k := by
      rw [Bits.toNat_shiftRight, Nat.div_lt_iff_lt_mul (Nat.two_pow_pos _), Nat.mul_comm, ← hpow]
      exact hlo
    rw [BitVec.or_comm, Bits.toNat_or_disjoint hupper (Bits.toNat_shiftLeft_of_lt hfit),
      Bits.toNat_shiftLeft_of_lt hfit, Bits.toNat_shiftRight, BitVec.toNat_shiftLeft,
      Nat.shiftLeft_eq, hpow, Nat.mul_mod_mul_right]
    have hsplit := Nat.div_add_mod' lo.toNat (2 ^ (P.typeWidth - k))
    generalize 2 ^ (P.typeWidth - k) = B at *
    calc (lo.toNat / B + hi.toNat * 2 ^ k) * (B * 2 ^ k) + lo.toNat % B * 2 ^ k
        = (hi.toNat * (B * 2 ^ k) + (lo.toNat / B * B + lo.toNat % B)) * 2 ^ k := by ring
      _ = (hi.toNat * (B * 2 ^ k) + lo.toNat) * 2 ^ k := by rw [hsplit]

/-- A right shift inside the low word. -/
theorem wideRightShiftWithSticky_ok (hi lo : P.Rep) {k : Nat} (hpos : 0 < k)
    (hk : k < P.typeWidth) :
    ∃ hi' lo' : P.Rep, wideRightShiftWithSticky hi lo k = .ok (hi', lo') ∧
      hi'.toNat * 2 ^ P.typeWidth + lo'.toNat =
        stickyShift (hi.toNat * 2 ^ P.typeWidth + lo.toNat) k := by
  have hleft : (P.typeWidth : Int) - k = ((P.typeWidth - k : Nat) : Int) := by omega
  have hpow : 2 ^ P.typeWidth = 2 ^ k * 2 ^ (P.typeWidth - k) := by
    rw [← Nat.pow_add, Nat.add_sub_of_le (Nat.le_of_lt hk)]
  have hlo := lo.isLt
  refine ⟨hi >>> k, hi <<< (P.typeWidth - k) ||| lo >>> k |||
    (if decide (lo <<< (P.typeWidth - k) ≠ 0#P.typeWidth) then 1#P.typeWidth
      else 0#P.typeWidth), ?_, ?_⟩
  · unfold wideRightShiftWithSticky
    rw [if_pos hk, shl_ok lo hleft (by omega), ok_bind, shl_ok hi hleft (by omega),
      shr_ok lo rfl hk, shr_ok hi rfl hk]
    rfl
  · have hlower : (lo >>> k).toNat < 2 ^ (P.typeWidth - k) := by
      rw [Bits.toNat_shiftRight, Nat.div_lt_iff_lt_mul (Nat.two_pow_pos _), Nat.mul_comm, ← hpow]
      exact hlo
    have hupper : (hi <<< (P.typeWidth - k)).toNat = hi.toNat % 2 ^ k * 2 ^ (P.typeWidth - k) := by
      rw [BitVec.toNat_shiftLeft, Nat.shiftLeft_eq, hpow, Nat.mul_mod_mul_right]
    rw [Bits.toNat_or_bit P.typeWidth_pos, BitVec.or_comm, Bits.toNat_or_disjoint hlower hupper,
      hupper, Bits.toNat_shiftRight, Bits.toNat_shiftRight]
    simp only [ne_eq, Bits.shiftLeft_eq_zero_iff (Nat.le_of_lt hk), decide_not, Bool.not_eq_true',
      decide_eq_false_iff_not]
    have hmod : (hi.toNat * 2 ^ P.typeWidth + lo.toNat) % 2 ^ k = lo.toNat % 2 ^ k := by
      rw [hpow, Nat.mul_left_comm, Nat.mul_add_mod]
    have hdiv : (hi.toNat * 2 ^ P.typeWidth + lo.toNat) / 2 ^ k =
        hi.toNat / 2 ^ k * 2 ^ P.typeWidth +
          (lo.toNat / 2 ^ k + hi.toNat % 2 ^ k * 2 ^ (P.typeWidth - k)) := by
      have hsplit := Nat.div_add_mod' hi.toNat (2 ^ k)
      rw [hpow, Nat.mul_left_comm, Nat.mul_add_div (Nat.two_pow_pos k)]
      generalize 2 ^ (P.typeWidth - k) = B at *
      calc hi.toNat * B + lo.toNat / 2 ^ k
          = (hi.toNat / 2 ^ k * 2 ^ k + hi.toNat % 2 ^ k) * B + lo.toNat / 2 ^ k := by rw [hsplit]
        _ = hi.toNat / 2 ^ k * (2 ^ k * B) + (lo.toNat / 2 ^ k + hi.toNat % 2 ^ k * B) := by ring
    have heven : hi.toNat / 2 ^ k * 2 ^ P.typeWidth % 2 = 0 := by
      rw [P.two_pow_typeWidth, Nat.mul_left_comm, Nat.mul_mod_right]
    unfold stickyShift
    rw [hmod, hdiv]
    split_ifs <;> omega

/-! ## Operands -/

/-- A word that is neither a zero nor an infinity nor a NaN. -/
structure IsNonzeroFinite (a : P.Rep) : Prop where
  pos : 0 < a.toNat % P.format.signBit
  lt : a.toNat % P.format.signBit < P.format.infPattern

/-- A denormal operand is normalised, and a normal one has its implicit bit
set. -/
theorem operand_cases {a : P.Rep} (h : IsNonzeroFinite a) :
    ((exponentField a).toNat = 0 ∧ ∃ (s : P.Rep) (t : Nat),
        normalize (a &&& P.significandMask) = .ok (s, (t : Int) + 1 - P.significandBits) ∧
        Unpacked P.significandBits (a.toNat % P.format.signBit) (s ||| P.implicitBit).toNat t ∧
        t < P.significandBits) ∨
      (0 < (exponentField a).toNat ∧ (exponentField a).toNat < P.maxExponent ∧
        Unpacked P.significandBits (a.toNat % P.format.signBit)
          (a &&& P.significandMask ||| P.implicitBit).toNat
          ((exponentField a).toNat - 1 + P.significandBits)) := by
  obtain ⟨hpos, hlt⟩ := h
  have hsig := significandField_toNat a
  have hpow := Nat.two_pow_pos P.significandBits
  rw [P.format_infPattern, ← Nat.div_lt_iff_lt_mul hpow] at hlt
  rw [exponentField_toNat]
  generalize a.toNat % P.format.signBit = m at *
  rcases Nat.eq_zero_or_pos (m / 2 ^ P.significandBits) with hzero | hnonzero
  · have hsmall : m < 2 ^ P.significandBits := Nat.lt_of_div_eq_zero hpow hzero
    have hlog : m.log2 < P.significandBits := (Nat.log2_lt (Nat.ne_of_gt hpos)).2 hsmall
    have hunpacked := Unpacked.subnormal hpos hsmall
    rw [Nat.mod_eq_of_lt hsmall] at hsig
    obtain ⟨s, hs, hsNat⟩ := normalize_ok (hsig.symm ▸ hpos) (hsig.symm ▸ hsmall)
    rw [hsig] at hs hsNat
    refine Or.inl ⟨hzero, s, m.log2, ?_, ?_, hlog⟩
    · rw [hs]
      congr 2
      omega
    · rwa [or_implicitBit_toNat_of_ge (by rw [hsNat]; exact hunpacked.ge)
        (by rw [hsNat]; exact hunpacked.lt), hsNat]
  · refine Or.inr ⟨hnonzero, hlt, ?_⟩
    rw [or_implicitBit_toNat_of_lt (by rw [hsig]; exact Nat.mod_lt _ hpow), hsig]
    exact Unpacked.normal hnonzero

theorem eq_zero_or_signBit {a : P.Rep} (h : a.toNat % P.format.signBit = 0) :
    a = 0#P.typeWidth ∨ a = P.signBit := by
  have hlt := toNat_lt a
  rcases Nat.lt_or_ge a.toNat P.format.signBit with hpos | hneg
  · left
    apply BitVec.eq_of_toNat_eq
    rw [Nat.mod_eq_of_lt hpos] at h
    rw [h, BitVec.toNat_zero]
  · right
    apply BitVec.eq_of_toNat_eq
    rw [Nat.mod_eq_sub_mod hneg, Nat.mod_eq_of_lt (by omega)] at h
    rw [P.signBit_toNat, ← P.format_signBit]
    omega

/-- The value of either zero. -/
theorem units_of_zero {a : P.Rep} (h : a.toNat % P.format.signBit = 0) :
    P.format.units a.toNat = 0 := by
  rw [units_eq, h, magnitude_zero]
  simp

end Specifications

end Cheesecloth.Builtins.SoftFloat
