import Cheesecloth.CodeLib.Bits
import Cheesecloth.CodeLib.Checked
import Cheesecloth.CodeLib.Rescale

/-!
# The model of `fp_extend_impl.inc`

The conversions to a wider format, written once over the macros of
`fp_extend.h`.  `FloatType` is one side of a conversion, and `Extension` is a
pair that the x86_64 build compiles.

`extendXfYf2_datum` is the result: an extension runs without a fault and keeps
what the word stands for, NaNs and both zeros included.

The quad conversions are left out, as `long double` is.
-/

namespace Cheesecloth.Builtins.SoftFloat

open CodeLib CodeLib.Checked

/-! ## Macros -/

/-- `SRC_HALF`, `SRC_SINGLE` and `SRC_DOUBLE`, and the same for `DST`. -/
inductive FloatType where
  | half
  | single
  | double
  deriving DecidableEq, Repr

namespace FloatType

/-- `srcBits` and `dstBits`. -/
def bits : FloatType → Nat
  | half => 16
  | single => 32
  | double => 64

/-- `srcSigBits` and `dstSigBits`. -/
def sigBits : FloatType → Nat
  | half => 10
  | single => 23
  | double => 52

/-- `src_rep_t` and `dst_rep_t`. -/
abbrev Rep (F : FloatType) : Type := BitVec F.bits

variable (F : FloatType)

def expBits : Nat := F.bits - F.sigBits - 1

/-- `(1 << srcExpBits) - 1`. -/
def infExp : Nat := 2 ^ F.expBits - 1

/-- `srcInfExp >> 1`. -/
def expBias : Nat := F.infExp / 2

def minNormal : F.Rep := 1#F.bits <<< F.sigBits

def significandMask : F.Rep := F.minNormal - 1#F.bits

def infinity : F.Rep := BitVec.ofNat F.bits F.infExp <<< F.sigBits

def signMask : F.Rep := 1#F.bits <<< (F.sigBits + F.expBits)

def absMask : F.Rep := F.signMask - 1#F.bits

def qNaN : F.Rep := 1#F.bits <<< (F.sigBits - 1)

def nanCode : F.Rep := F.qNaN - 1#F.bits

/-- The format that the bit patterns encode. -/
def format : Format where
  significandBits := F.sigBits
  exponentBits := F.expBits
  significandBits_pos := by cases F <;> decide
  exponentBits_gt_one := by cases F <;> decide

/-- `src_rep_t_clz`.  The half type is promoted to an `unsigned int` first. -/
def repClz : (F : FloatType) → F.Rep → Checked Int
  | half, a => clz (a.setWidth 32)
  | single, a => clz a
  | double, a => clz a

end FloatType

/-- The extensions: `__extendhfsf2` and `__extendsfdf2`. -/
inductive Extension where
  | hfsf2
  | sfdf2
  deriving DecidableEq, Repr

namespace Extension

def src : Extension → FloatType
  | hfsf2 => .half
  | sfdf2 => .single

def dst : Extension → FloatType
  | hfsf2 => .single
  | sfdf2 => .double

variable (E : Extension)

/-- `dstSigBits - srcSigBits`. -/
def sigDiff : Nat := E.dst.sigBits - E.src.sigBits

/-- `dstExpBias - srcExpBias`. -/
def biasDiff : Nat := E.dst.expBias - E.src.expBias

end Extension

/-! ## The routines -/

/-- `absResult` of `__extendXfYf2__`. -/
def extendAbs (E : Extension) (aAbs : E.src.Rep) : Checked E.dst.Rep :=
  if aAbs - E.src.minNormal < E.src.infinity - E.src.minNormal then
    -- a normal number
    return aAbs.setWidth E.dst.bits <<< E.sigDiff +
      BitVec.ofNat E.dst.bits E.biasDiff <<< E.dst.sigBits
  else if aAbs ≥ E.src.infinity then
    -- an infinity or a NaN
    return E.dst.infinity ||| (aAbs &&& E.src.qNaN).setWidth E.dst.bits <<< E.sigDiff |||
      (aAbs &&& E.src.nanCode).setWidth E.dst.bits <<< E.sigDiff
  else if aAbs ≠ 0#E.src.bits then do
    -- a denormal
    let scale := (← FloatType.repClz E.src aAbs) - (← FloatType.repClz E.src E.src.minNormal)
    let absResult ← shl (aAbs.setWidth E.dst.bits) (E.sigDiff + scale)
    let absResult := absResult ^^^ E.dst.minNormal
    let resultExponent := E.biasDiff - scale + 1
    return absResult ||| BitVec.ofInt E.dst.bits resultExponent <<< E.dst.sigBits
  else
    return 0#E.dst.bits

/-- `__extendXfYf2__`. -/
def extendXfYf2 (E : Extension) (a : E.src.Rep) : Checked E.dst.Rep := do
  let sign := a &&& E.src.signMask
  let absResult ← extendAbs E (a &&& E.src.absMask)
  return absResult ||| sign.setWidth E.dst.bits <<< (E.dst.bits - E.src.bits)

/-- `__extendhfsf2`. -/
def extendhfsf2 (a : BitVec 16) : Checked (BitVec 32) := extendXfYf2 .hfsf2 a

/-- `__extendsfdf2`. -/
def extendsfdf2 (a : BitVec 32) : Checked (BitVec 64) := extendXfYf2 .sfdf2 a

/-! ## The macros as numbers -/

namespace FloatType

variable (F : FloatType)

theorem bits_eq : F.bits = F.sigBits + F.expBits + 1 := by
  cases F <;> rfl

theorem two_pow_bits : 2 ^ F.bits = 2 * F.format.signBit := by
  rw [bits_eq, Nat.pow_succ']
  rfl

theorem minNormal_toNat : F.minNormal.toNat = 2 ^ F.sigBits := by
  cases F <;> rfl

theorem significandMask_toNat : F.significandMask.toNat = 2 ^ F.sigBits - 1 := by
  cases F <;> rfl

theorem infinity_toNat : F.infinity.toNat = F.format.infPattern := by
  cases F <;> rfl

theorem format_infPattern : F.format.infPattern = F.infExp * 2 ^ F.sigBits := rfl

theorem signMask_toNat : F.signMask.toNat = F.format.signBit := by
  cases F <;> rfl

theorem qNaN_toNat : F.qNaN.toNat = 2 ^ (F.sigBits - 1) := by
  cases F <;> rfl

theorem nanCode_toNat : F.nanCode.toNat = 2 ^ (F.sigBits - 1) - 1 := by
  cases F <;> rfl

variable {F}

theorem toNat_lt (a : F.Rep) : a.toNat < 2 * F.format.signBit :=
  Bits.toNat_lt_twice F.bits_eq a

theorem abs_toNat (a : F.Rep) : (a &&& F.absMask).toNat = a.toNat % F.format.signBit :=
  Bits.toNat_and_lowMask (k := F.sigBits + F.expBits) (by cases F <;> rfl)

theorem and_signMask (a : F.Rep) :
    a &&& F.signMask = if F.format.signBit ≤ a.toNat then F.signMask else 0#F.bits :=
  Bits.and_topBit F.bits_eq F.signMask_toNat

/-- A word that is put together from a sign and a pattern. -/
theorem or_sign_toNat {x : F.Rep} (negative : Prop) [Decidable negative]
    (hx : x.toNat < F.format.signBit) :
    (x ||| if negative then F.signMask else 0#F.bits).toNat =
      (if negative then F.format.signBit else 0) + x.toNat :=
  Bits.toNat_or_topBit F.signMask_toNat negative hx

/-- `src_rep_t_clz(a) - src_rep_t_clz(srcMinNormal)` on a denormal. -/
theorem repClz_ok {a : F.Rep} (h0 : 0 < a.toNat) (h : a.toNat < 2 ^ F.sigBits) :
    ∃ u v : Int, repClz F a = .ok u ∧ repClz F F.minNormal = .ok v ∧
      u - v = ((F.sigBits - a.toNat.log2 : Nat) : Int) := by
  have hlog : a.toNat.log2 < F.sigBits := (Nat.log2_lt (Nat.ne_of_gt h0)).2 h
  cases F with
  | half =>
    have hlog' : a.toNat.log2 < 10 := hlog
    have hlt : a.toNat < 2 ^ 16 := a.isLt
    have hwide : (BitVec.setWidth 32 a).toNat = a.toNat := by
      rw [BitVec.toNat_setWidth, Nat.mod_eq_of_lt (by omega)]
    refine ⟨((31 - a.toNat.log2 : Nat) : Int), 21, clz_ok (hwide.symm ▸ h0) ?_, rfl, ?_⟩
    · rw [hwide]
      omega
    · show _ = ((10 - a.toNat.log2 : Nat) : Int)
      omega
  | single =>
    have hlog' : a.toNat.log2 < 23 := hlog
    refine ⟨((31 - a.toNat.log2 : Nat) : Int), 8, clz_ok h0 (show _ = 32 by omega), rfl, ?_⟩
    show _ = ((23 - a.toNat.log2 : Nat) : Int)
    omega
  | double =>
    have hlog' : a.toNat.log2 < 52 := hlog
    refine ⟨((63 - a.toNat.log2 : Nat) : Int), 11, clz_ok h0 (show _ = 64 by omega), rfl, ?_⟩
    show _ = ((52 - a.toNat.log2 : Nat) : Int)
    omega

end FloatType

/-- The wrapping test for a normal number. -/
theorem normal_iff {F : FloatType} {x : F.Rep} (hx : x.toNat < F.format.signBit) :
    x - F.minNormal < F.infinity - F.minNormal ↔
      2 ^ F.sigBits ≤ x.toNat ∧ x.toNat < F.format.infPattern := by
  have hinf := Format.infPattern_lt_signBit (f := F.format)
  have hpow := Nat.two_pow_pos F.sigBits
  have hmin : 2 ^ F.sigBits ≤ F.format.infPattern := by cases F <;> decide
  rw [BitVec.lt_def, BitVec.toNat_sub, BitVec.toNat_sub, F.minNormal_toNat, F.infinity_toNat,
    F.two_pow_bits, Nat.mod_eq_sub_mod (b := 2 * F.format.signBit)
      (show 2 * F.format.signBit - 2 ^ F.sigBits + F.format.infPattern ≥ _ by omega),
    Nat.mod_eq_of_lt (a := 2 * F.format.signBit - 2 ^ F.sigBits + F.format.infPattern - _)
      (by omega)]
  rcases Nat.lt_or_ge x.toNat (2 ^ F.sigBits) with h | h
  · rw [Nat.mod_eq_of_lt (by omega)]
    omega
  · rw [Nat.mod_eq_sub_mod (by omega), Nat.mod_eq_of_lt (by omega)]
    omega

/-! ## Extension -/

namespace Extension

variable (E : Extension)

theorem widens : E.src.format.Widens E.dst.format E.sigDiff E.biasDiff := by
  cases E <;> exact ⟨rfl, rfl⟩

theorem dst_sigBits : E.dst.sigBits = E.src.sigBits + E.sigDiff := by
  cases E <;> rfl

theorem sigBits_le_biasDiff : E.src.sigBits ≤ E.biasDiff := by
  cases E <;> decide

theorem bits_le : E.src.bits ≤ E.dst.bits := by
  cases E <;> decide

/-- The exponents of the source have their place below the largest one. -/
theorem infExp_add_biasDiff : E.src.infExp + E.biasDiff ≤ E.dst.infExp := by
  cases E <;> decide

theorem ofNat_toNat {e : Nat} (he : e < E.dst.infExp) :
    (BitVec.ofNat E.dst.bits e <<< E.dst.sigBits).toNat = e * 2 ^ E.dst.sigBits ∧
      e * 2 ^ E.dst.sigBits + 2 ^ E.dst.sigBits ≤ E.dst.format.infPattern := by
  have hinf := Format.infPattern_lt_signBit (f := E.dst.format)
  have hw := E.dst.two_pow_bits
  have hpow := Nat.two_pow_pos E.dst.sigBits
  have hfield : e * 2 ^ E.dst.sigBits + 2 ^ E.dst.sigBits ≤ E.dst.format.infPattern := by
    rw [E.dst.format_infPattern, ← Nat.succ_mul]
    exact Nat.mul_le_mul_right _ he
  have hsmall : (BitVec.ofNat E.dst.bits e).toNat = e := by
    have hlt : E.dst.infExp < 2 ^ E.dst.bits := by cases E <;> decide
    rw [BitVec.toNat_ofNat, Nat.mod_eq_of_lt (by omega)]
  exact ⟨by rw [Bits.toNat_shiftLeft_of_lt (by rw [hsmall]; omega), hsmall], hfield⟩

/-- A shift of the significand into the wider word loses nothing. -/
theorem setWidth_toNat (x : E.src.Rep) : (x.setWidth E.dst.bits).toNat = x.toNat := by
  rw [BitVec.toNat_setWidth, Nat.mod_eq_of_lt]
  exact Nat.lt_of_lt_of_le x.isLt (Nat.pow_le_pow_right (by decide) E.bits_le)

end Extension

section Extend

variable {E : Extension} {x : E.src.Rep}

/-- A normal number. -/
theorem extendAbs_normal (hge : 2 ^ E.src.sigBits ≤ x.toNat)
    (hlt : x.toNat < E.src.format.infPattern) :
    ∃ r : E.dst.Rep, extendAbs E x = .ok r ∧ r.toNat < E.dst.format.infPattern ∧
      magnitude E.dst.sigBits r.toNat =
        magnitude E.src.sigBits x.toNat * 2 ^ (E.sigDiff + E.biasDiff) := by
  have hinf := Format.infPattern_lt_signBit (f := E.src.format)
  have hinf' := Format.infPattern_lt_signBit (f := E.dst.format)
  have hw := E.dst.two_pow_bits
  have hfit : x.toNat * 2 ^ E.sigDiff + E.biasDiff * 2 ^ E.dst.sigBits <
      E.dst.format.infPattern := by
    have hshift : x.toNat * 2 ^ E.sigDiff < E.src.infExp * 2 ^ E.dst.sigBits := by
      rw [E.dst_sigBits, Nat.pow_add, ← Nat.mul_assoc, ← E.src.format_infPattern]
      exact Nat.mul_lt_mul_of_pos_right hlt (Nat.two_pow_pos _)
    have hsum := Nat.mul_le_mul_right (2 ^ E.dst.sigBits) E.infExp_add_biasDiff
    rw [Nat.add_mul, ← E.dst.format_infPattern] at hsum
    omega
  have hB := (E.ofNat_toNat (e := E.biasDiff) (by
    have := E.infExp_add_biasDiff
    have : 0 < E.src.infExp := by cases E <;> decide
    omega)).1
  have hx : (x.setWidth E.dst.bits <<< E.sigDiff).toNat = x.toNat * 2 ^ E.sigDiff := by
    rw [Bits.toNat_shiftLeft_of_lt (by rw [E.setWidth_toNat]; omega), E.setWidth_toNat]
  refine ⟨x.setWidth E.dst.bits <<< E.sigDiff +
    BitVec.ofNat E.dst.bits E.biasDiff <<< E.dst.sigBits, ?_, ?_, ?_⟩
  · rw [extendAbs, if_pos ((normal_iff (by omega)).2 ⟨hge, hlt⟩)]
    rfl
  · rw [BitVec.toNat_add, hx, hB, Nat.mod_eq_of_lt (by omega)]
    exact hfit
  · rw [BitVec.toNat_add, hx, hB, Nat.mod_eq_of_lt (by omega), E.dst_sigBits]
    exact magnitude_widen _ _ hge

/-- A denormal. -/
theorem extendAbs_denormal (h0 : 0 < x.toNat) (hlt : x.toNat < 2 ^ E.src.sigBits) :
    ∃ r : E.dst.Rep, extendAbs E x = .ok r ∧ r.toNat < E.dst.format.infPattern ∧
      magnitude E.dst.sigBits r.toNat =
        magnitude E.src.sigBits x.toNat * 2 ^ (E.sigDiff + E.biasDiff) := by
  have hlog : x.toNat.log2 < E.src.sigBits := (Nat.log2_lt (Nat.ne_of_gt h0)).2 hlt
  have hbias := E.sigBits_le_biasDiff
  have hmin : 2 ^ E.src.sigBits ≤ E.src.format.infPattern := by cases E <;> decide
  have hinf := Format.infPattern_lt_signBit (f := E.src.format)
  have hexps := E.infExp_add_biasDiff
  have hinfExp : 1 < E.src.infExp := by cases E <;> decide
  obtain ⟨u, v, hu, hv, hscale⟩ := FloatType.repClz_ok h0 hlt
  obtain ⟨k, hk⟩ : ∃ k, k + E.src.sigBits = E.biasDiff + x.toNat.log2 :=
    ⟨E.biasDiff + x.toNat.log2 - E.src.sigBits, by omega⟩
  have hexponent : (E.biasDiff : Int) - (u - v) + 1 = ((k + 1 : Nat) : Int) := by
    rw [hscale]
    omega
  obtain ⟨hfield, hfieldLe⟩ := E.ofNat_toNat (e := k + 1) (by omega)
  have hdst := E.dst_sigBits
  have hsigLe : E.dst.sigBits + 1 < E.dst.bits := by cases E <;> decide
  -- the leading bit of the significand is the implicit one
  obtain ⟨hge', hlt'⟩ := lead_bit h0 (Nat.le_of_lt hlog)
  have hsig : x.toNat * 2 ^ (E.sigDiff + (E.src.sigBits - x.toNat.log2)) =
      x.toNat * 2 ^ (E.src.sigBits - x.toNat.log2) * 2 ^ E.sigDiff := by
    ring
  have hge'' : 2 ^ E.dst.sigBits ≤
      x.toNat * 2 ^ (E.sigDiff + (E.src.sigBits - x.toNat.log2)) := by
    rw [hsig, hdst, Nat.pow_add]
    exact Nat.mul_le_mul_right _ hge'
  have hlt'' : x.toNat * 2 ^ (E.sigDiff + (E.src.sigBits - x.toNat.log2)) <
      2 ^ (E.dst.sigBits + 1) := by
    rw [hsig, hdst, Nat.add_right_comm, Nat.pow_add]
    exact Nat.mul_lt_mul_of_pos_right hlt' (Nat.two_pow_pos _)
  have hshifted : (x.setWidth E.dst.bits <<<
      (E.sigDiff + (E.src.sigBits - x.toNat.log2))).toNat =
        x.toNat * 2 ^ (E.sigDiff + (E.src.sigBits - x.toNat.log2)) := by
    rw [Bits.toNat_shiftLeft_of_lt, E.setWidth_toNat]
    rw [E.setWidth_toNat]
    exact Nat.lt_of_lt_of_le hlt'' (Nat.pow_le_pow_right (by decide) (by omega))
  have hcleared := Bits.toNat_xor_lead E.dst.minNormal_toNat (hshifted ▸ hge'') (hshifted ▸ hlt'')
  rw [hshifted] at hcleared
  have hlow : x.toNat * 2 ^ (E.sigDiff + (E.src.sigBits - x.toNat.log2)) - 2 ^ E.dst.sigBits <
      2 ^ E.dst.sigBits := by
    rw [Nat.pow_succ] at hlt''
    omega
  have hresult := Bits.toNat_or_disjoint (hcleared ▸ hlow) hfield
  rw [hcleared, hfield] at hresult
  refine ⟨(x.setWidth E.dst.bits <<< (E.sigDiff + (E.src.sigBits - x.toNat.log2)) ^^^
    E.dst.minNormal) ||| BitVec.ofNat E.dst.bits (k + 1) <<< E.dst.sigBits, ?_, ?_, ?_⟩
  · rw [extendAbs, if_neg (by rw [normal_iff (by omega)]; omega),
      if_neg (by rw [ge_iff_le, BitVec.le_def, E.src.infinity_toNat]; omega),
      if_pos (ne_zero_of_toNat_pos h0), hu, hv]
    simp only [ok_bind]
    rw [hexponent, BitVec.ofInt_natCast, hscale, ← Nat.cast_add, shl_ok _ rfl (by omega)]
    rfl
  · rw [hresult]
    omega
  · have hpattern : x.toNat * 2 ^ (E.sigDiff + (E.src.sigBits - x.toNat.log2)) -
        2 ^ E.dst.sigBits + (k + 1) * 2 ^ E.dst.sigBits =
        k * 2 ^ E.dst.sigBits + x.toNat * 2 ^ (E.sigDiff + (E.src.sigBits - x.toNat.log2)) := by
      rw [Nat.add_mul, Nat.one_mul]
      omega
    rw [hresult, hpattern, hdst]
    exact magnitude_widen_subnormal h0 hlt hk

/-- An infinity or a NaN.  The payload keeps its place below the exponent. -/
theorem extendAbs_special (hge : E.src.format.infPattern ≤ x.toNat)
    (hlt : x.toNat < E.src.format.signBit) :
    ∃ r : E.dst.Rep, extendAbs E x = .ok r ∧
      r.toNat = E.dst.format.infPattern + (x.toNat - E.src.format.infPattern) * 2 ^ E.sigDiff := by
  have hmask : E.src.qNaN ||| E.src.nanCode = E.src.significandMask := by cases E <;> rfl
  have hend : E.src.format.signBit = E.src.format.infPattern + 2 ^ E.src.sigBits := by
    cases E <;> rfl
  have hpayload : (x &&& E.src.significandMask).toNat = x.toNat - E.src.format.infPattern := by
    rw [Bits.toNat_and_lowMask E.src.significandMask_toNat, E.src.format_infPattern] at *
    obtain ⟨y, hy⟩ := Nat.exists_eq_add_of_le hge
    rw [hy, Nat.mul_comm, Nat.mul_add_mod, Nat.add_sub_cancel_left, Nat.mod_eq_of_lt (by omega)]
  have hsmall : (x.toNat - E.src.format.infPattern) * 2 ^ E.sigDiff < 2 ^ E.dst.sigBits := by
    rw [E.dst_sigBits, Nat.pow_add]
    exact Nat.mul_lt_mul_of_pos_right (by omega) (Nat.two_pow_pos _)
  have hshifted : ((x &&& E.src.significandMask).setWidth E.dst.bits <<< E.sigDiff).toNat =
      (x.toNat - E.src.format.infPattern) * 2 ^ E.sigDiff := by
    have hw : 2 ^ E.dst.sigBits < 2 ^ E.dst.bits :=
      Nat.pow_lt_pow_right (by decide) (by cases E <;> decide)
    rw [Bits.toNat_shiftLeft_of_lt (by rw [E.setWidth_toNat, hpayload]; omega), E.setWidth_toNat,
      hpayload]
  refine ⟨E.dst.infinity ||| (x &&& E.src.significandMask).setWidth E.dst.bits <<< E.sigDiff,
    ?_, ?_⟩
  · rw [extendAbs, if_neg (by rw [normal_iff hlt]; omega),
      if_pos (by rw [ge_iff_le, BitVec.le_def, E.src.infinity_toNat]; exact hge), BitVec.or_assoc,
      ← BitVec.shiftLeft_or_distrib, ← BitVec.setWidth_or, ← BitVec.and_or_distrib_left, hmask]
    rfl
  · rw [BitVec.or_comm, Bits.toNat_or_disjoint (hshifted ▸ hsmall)
      (by rw [E.dst.infinity_toNat, E.dst.format_infPattern]), hshifted, E.dst.infinity_toNat,
      Nat.add_comm]

theorem extendAbs_special_lt {m n : Nat} (hlt : m < E.src.format.signBit)
    (hn : n = E.dst.format.infPattern + (m - E.src.format.infPattern) * 2 ^ E.sigDiff) :
    n < E.dst.format.signBit := by
  have hend : E.src.format.signBit = E.src.format.infPattern + 2 ^ E.src.sigBits := by
    cases E <;> rfl
  have hend' : E.dst.format.signBit = E.dst.format.infPattern + 2 ^ E.dst.sigBits := by
    cases E <;> rfl
  have hpow := Nat.two_pow_pos E.src.sigBits
  rw [hn, hend', E.dst_sigBits, Nat.pow_add]
  exact Nat.add_lt_add_left (Nat.mul_lt_mul_of_pos_right (by omega) (Nat.two_pow_pos _)) _

theorem extendAbs_finite (hlt : x.toNat < E.src.format.infPattern) :
    ∃ r : E.dst.Rep, extendAbs E x = .ok r ∧ r.toNat < E.dst.format.infPattern ∧
      magnitude E.dst.sigBits r.toNat =
        magnitude E.src.sigBits x.toNat * 2 ^ (E.sigDiff + E.biasDiff) := by
  rcases Nat.lt_or_ge x.toNat (2 ^ E.src.sigBits) with hden | hnormal
  · rcases Nat.eq_zero_or_pos x.toNat with hzero | hpos
    · obtain rfl : x = 0#E.src.bits := BitVec.eq_of_toNat_eq (by rw [hzero, BitVec.toNat_zero])
      refine ⟨0#E.dst.bits, by cases E <;> rfl, ?_, ?_⟩
      · rw [BitVec.toNat_zero]
        exact Format.infPattern_pos
      · rw [BitVec.toNat_zero, BitVec.toNat_zero, magnitude_zero, magnitude_zero, Nat.zero_mul]
    · exact extendAbs_denormal hpos hden
  · exact extendAbs_normal hnormal hlt

/-- The sign bit is moved up, and the pattern is as computed. -/
theorem extendXfYf2_ok (a : E.src.Rep) {x : E.dst.Rep}
    (hx : extendAbs E (a &&& E.src.absMask) = .ok x) (hlt : x.toNat < E.dst.format.signBit) :
    ∃ r : E.dst.Rep, extendXfYf2 E a = .ok r ∧ r.toNat % E.dst.format.signBit = x.toNat ∧
      (E.dst.format.signBit ≤ r.toNat ↔ E.src.format.signBit ≤ a.toNat) := by
  have hsign : (a &&& E.src.signMask).setWidth E.dst.bits <<< (E.dst.bits - E.src.bits) =
      if E.src.format.signBit ≤ a.toNat then E.dst.signMask else 0#E.dst.bits := by
    rw [FloatType.and_signMask]
    by_cases h : E.src.format.signBit ≤ a.toNat
    · rw [if_pos h, if_pos h]
      cases E <;> rfl
    · rw [if_neg h, if_neg h]
      cases E <;> rfl
  refine ⟨x ||| if E.src.format.signBit ≤ a.toNat then E.dst.signMask else 0#E.dst.bits,
    ?_, ?_⟩
  · rw [extendXfYf2, hx, ok_bind, hsign]
    rfl
  · rw [FloatType.or_sign_toNat _ hlt]
    by_cases h : E.src.format.signBit ≤ a.toNat
    · rw [if_pos h, Nat.add_mod_left, Nat.mod_eq_of_lt hlt]
      exact ⟨rfl, by omega⟩
    · rw [if_neg h, Nat.zero_add, Nat.mod_eq_of_lt hlt]
      exact ⟨rfl, by omega⟩

/-- An extension runs without a fault, and the result stands for what the
operand stands for.  A NaN keeps its sign too. -/
theorem extendXfYf2_datum (E : Extension) (a : E.src.Rep) :
    ∃ r : E.dst.Rep, extendXfYf2 E a = .ok r ∧
      E.dst.format.datum r.toNat = E.src.format.datum a.toNat ∧
      (E.dst.format.signBit ≤ r.toNat ↔ E.src.format.signBit ≤ a.toNat) := by
  have hinf' := Format.infPattern_lt_signBit (f := E.dst.format)
  have habs := FloatType.abs_toNat a
  have hlt := Nat.mod_lt a.toNat (show 0 < E.src.format.signBit from Nat.two_pow_pos _)
  rcases Nat.lt_or_ge (a.toNat % E.src.format.signBit) E.src.format.infPattern with hfin | hspecial
  · obtain ⟨x, hx, hxlt, hmag⟩ := extendAbs_finite (x := a &&& E.src.absMask) (habs ▸ hfin)
    obtain ⟨r, hr, hpattern, hsign⟩ := extendXfYf2_ok a hx (by omega)
    rw [habs, ← hpattern] at hmag
    refine ⟨r, hr, ?_, hsign⟩
    rw [Format.datum_finite ⟨FloatType.toNat_lt r, by omega⟩,
      Format.datum_finite ⟨FloatType.toNat_lt a, hfin⟩, decide_eq_decide.2 hsign,
      E.widens.value_eq hsign hmag]
  · obtain ⟨x, hx, hxNat⟩ := extendAbs_special (x := a &&& E.src.absMask) (habs ▸ hspecial)
      (habs ▸ hlt)
    rw [habs] at hxNat
    obtain ⟨r, hr, hpattern, hsign⟩ := extendXfYf2_ok a hx (extendAbs_special_lt hlt hxNat)
    refine ⟨r, hr, ?_, hsign⟩
    rcases Nat.eq_or_lt_of_le hspecial with hinf | hnan
    · rw [← hinf, Nat.sub_self, Nat.zero_mul, Nat.add_zero] at hxNat
      rw [Format.datum_inf hinf.symm, Format.datum_inf (hpattern.trans hxNat),
        decide_eq_decide.2 hsign]
    · have hpayload : 0 < (a.toNat % E.src.format.signBit - E.src.format.infPattern) *
          2 ^ E.sigDiff :=
        Nat.mul_pos (by omega) (Nat.two_pow_pos _)
      rw [Format.datum_nan hnan, Format.datum_nan (by omega)]

end Extend

end Cheesecloth.Builtins.SoftFloat
