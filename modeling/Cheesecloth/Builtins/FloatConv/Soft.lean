import Cheesecloth.Builtins.FloatConv.Model

/-!
# The integer-only conversions

The four integer-only bodies round their argument to nearest, ties to even.

* `roundToMantissa_ok`: the shift, sticky and round sequence computes
  `roundLead`, with the carry of the rounding moved into the exponent.
* `doubleBits_toNat` and `floatBits_toNat`: the packing adds the fields.
* `floatdidfSoft_ok`, `floatundidfSoft_ok`, `floatdisf_ok` and
  `floatundisf_ok`: the word that each body returns, in terms of
  `roundPattern`.
-/

namespace Cheesecloth.Builtins.FloatConv

open CodeLib CodeLib.Checked SoftFloat

/-! ## The shift, sticky and round sequence -/

/-- `shiftRight` is the right shift of a type that agrees with the unsigned one
on words without the top bit. -/
def IsShiftRight (shiftRight : BitVec 64 → Int → Checked (BitVec 64)) : Prop :=
  ∀ (x : BitVec 64) {n : Int} {k : Nat}, n = k → k < 64 → x.toNat < 2 ^ 63 →
    shiftRight x n = .ok (x >>> k)

theorem isShiftRight_shr : IsShiftRight shr := fun x _ _ hn hk _ => shr_ok x hn hk

theorem isShiftRight_sar : IsShiftRight sar := by
  intro x n k hn hk hx
  rw [sar_ok x hn hk]
  congr 1
  apply BitVec.eq_of_toNat_eq
  rw [BitVec.toNat_sshiftRight_of_msb_false (by simpa [BitVec.msb_eq_decide] using hx),
    BitVec.toNat_ushiftRight]

/-- Or the third bit into the first, add one, drop two bits: that is the
rounding of two bits. -/
theorem or_inc_shift_eq_roundShift (x : Nat) :
    ((if x / 2 ^ 2 % 2 ≠ 0 then x / 2 * 2 + 1 else x) + 1) / 2 ^ 2 = roundShift x 2 := by
  unfold roundShift
  split_ifs <;> omega

/-- The word before the rounding stands for `a`, two bits below the
mantissa. -/
theorem collectDropped_ok {p : Nat} {a : BitVec 64} (hp : p ≤ 52) (hlog : p < a.toNat.log2) :
    ∃ x : BitVec 64, collectDropped (p + 1) (a.toNat.log2 + 1) a = .ok x ∧
      roundShift x.toNat 2 = roundShift a.toNat (a.toNat.log2 - p) ∧
      2 ^ (p + 2) ≤ x.toNat ∧ x.toNat < 2 ^ (p + 3) := by
  have hpos : 0 < a.toNat := by
    rcases Nat.eq_zero_or_pos a.toNat with h | h
    · rw [h, Nat.log2_zero] at hlog
      omega
    · exact h
  have hge := Nat.log2_self_le (Nat.ne_of_gt hpos)
  have hlt := Nat.lt_log2_self (n := a.toNat)
  have hcap : 2 ^ (p + 3) ≤ 2 ^ 64 := Nat.pow_le_pow_right (by decide) (by omega)
  unfold collectDropped
  rcases Nat.lt_trichotomy a.toNat.log2 (p + 2) with hone | htwo | hmore
  · obtain hlog1 : a.toNat.log2 = p + 1 := by omega
    have hp2 : 2 ^ (p + 2) = 2 ^ (p + 1) * 2 := Nat.pow_succ _ _
    have hp3 : 2 ^ (p + 3) = 2 ^ (p + 1) * 4 := by ring
    rw [hlog1] at hge hlt ⊢
    rw [Nat.pow_succ] at hlt
    have hdouble : (a <<< 1).toNat = a.toNat * 2 ^ 1 := Bits.toNat_shiftLeft_of_lt (by omega)
    refine ⟨a <<< 1, ?_, ?_, by omega, by omega⟩
    · rw [if_pos (by push_cast; ring)]
      exact shl_ok a (k := 1) rfl (by decide)
    · rw [hdouble, show p + 1 - p = 1 by omega]
      exact roundShift_mul_two_pow a.toNat 1 1
  · rw [htwo] at hge hlt ⊢
    refine ⟨a, ?_, by rw [show p + 2 - p = 2 by omega], hge, hlt⟩
    rw [if_neg (by push_cast; omega), if_pos (by push_cast; ring)]
    rfl
  · obtain ⟨k, hk⟩ : ∃ k, a.toNat.log2 = p + 2 + k := ⟨a.toNat.log2 - (p + 2), by omega⟩
    have hlog64 : a.toNat.log2 < 64 := (Nat.log2_lt (Nat.ne_of_gt hpos)).2 a.isLt
    have hcollected : (a >>> k ||| if decide (a &&& BitVec.allOnes 64 >>> (64 - k) ≠ 0#64)
        then 1#64 else 0#64).toNat = stickyShift a.toNat k := by
      apply Bits.toNat_shiftRight_or_sticky (by decide)
      rw [decide_eq_true_iff, ne_eq, ← BitVec.toNat_inj, Bits.toNat_and_lowMask
        (Bits.toNat_allOnes_shiftRight (by omega)),
        BitVec.toNat_zero]
    refine ⟨a >>> k ||| if decide (a &&& BitVec.allOnes 64 >>> (64 - k) ≠ 0#64) then 1#64 else 0#64,
      ?_, ?_, ?_⟩
    · rw [if_neg (by omega), if_neg (by omega), shr_ok a (k := k) (by omega) (by omega),
        shr_ok _ (k := 64 - k) (by omega) (by omega)]
      rfl
    · rw [hcollected, roundShift_stickyShift _ _ (by decide), hk]
      congr 1
      omega
    · rw [hcollected]
      refine ⟨Nat.le_trans ?_ (le_stickyShift _ _), stickyShift_lt (by omega) ?_⟩
      · rw [Nat.le_div_iff_mul_le (Nat.two_pow_pos k), ← Nat.pow_add, ← hk]
        exact hge
      · rw [show k + (p + 3) = a.toNat.log2 + 1 by omega]
        exact hlt

/-- The three statements of the rounding. -/
theorem roundTwoBits_toNat {x : BitVec 64} (hx : x.toNat < 2 ^ 63) :
    (((x ||| if decide (x &&& 4#64 ≠ 0#64) then 1#64 else 0#64) + 1#64) >>> 2).toNat =
      roundShift x.toNat 2 := by
  have hbit : decide (x &&& 4#64 ≠ 0#64) = true ↔ x.toNat / 2 ^ 2 % 2 ≠ 0 := by
    rw [decide_eq_true_iff, ne_eq, Bits.and_singleBit_eq_zero_iff (k := 2) rfl]
  rw [Bits.toNat_shiftRight, BitVec.toNat_add, Bits.toNat_or_bit (by decide),
    ← or_inc_shift_eq_roundShift]
  simp only [hbit]
  rw [Nat.mod_eq_of_lt]
  · rfl
  · simp only [BitVec.toNat_ofNat]
    split_ifs <;> omega

/-- The mantissa and the exponent of `a`, rounded.  The carry of the rounding
is moved into the exponent, so that the mantissa keeps its width. -/
theorem roundToMantissa_ok {shiftRight : BitVec 64 → Int → Checked (BitVec 64)}
    (hshift : IsShiftRight shiftRight) {p : Nat} (hp : p ≤ 52) {a : BitVec 64} (ha : 0 < a.toNat) :
    ∃ (r : BitVec 64) (e : Nat), roundToMantissa shiftRight (p + 1) a = .ok (r, (e : Int)) ∧
      2 ^ p ≤ r.toNat ∧ r.toNat < 2 ^ (p + 1) ∧ e ≤ 64 ∧
      e * 2 ^ p + r.toNat = a.toNat.log2 * 2 ^ p + roundLead p a.toNat := by
  have hlog64 : a.toNat.log2 < 64 := (Nat.log2_lt (Nat.ne_of_gt ha)).2 a.isLt
  have hclz := clz_ok ha (show 63 - a.toNat.log2 + a.toNat.log2 + 1 = 64 by omega)
  have hsd : (64 : Int) - ((63 - a.toNat.log2 : Nat) : Int) = a.toNat.log2 + 1 := by omega
  unfold roundToMantissa
  rw [hclz, ok_bind, hsd]
  dsimp only
  rcases Nat.lt_or_ge p a.toNat.log2 with hlog | hlog
  · obtain ⟨x, hx, hround, hge, hlt⟩ := collectDropped_ok hp hlog
    have hp1 : 2 ^ (p + 1) = 2 * 2 ^ p := by ring
    have hp2 : 2 ^ (p + 2) = 4 * 2 ^ p := by ring
    have hp3 : 2 ^ (p + 3) = 8 * 2 ^ p := by ring
    have hcap : 2 ^ p ≤ 2 ^ 52 := Nat.pow_le_pow_right (by decide) hp
    have hlow := le_roundShift x.toNat 2
    have hhigh := roundShift_le x.toNat 2
    have hlead : roundLead p a.toNat = roundShift x.toNat 2 := by
      rw [roundLead, if_neg (by omega), hround]
    have hNat := roundTwoBits_toNat (x := x) (by omega)
    have hinc :
        ((x ||| if decide (x &&& 4#64 ≠ 0#64) then 1#64 else 0#64) + 1#64).toNat < 2 ^ 63 := by
      rw [Bits.toNat_shiftRight] at hNat
      omega
    have hmant : (1#64 <<< (p + 1)).toNat = 2 ^ (p + 1) := by
      rw [Bits.toNat_shiftLeft_of_lt] <;> simp only [BitVec.toNat_ofNat] <;> omega
    rw [if_pos (by omega), hx, ok_bind, hlead, hshift _ (n := 2) (k := 2) rfl (by decide) hinc,
      ok_bind, shl_ok _ (k := p + 1) (by push_cast; ring) (by omega), ok_bind]
    generalize ((x ||| if decide (x &&& 4#64 ≠ 0#64) then 1#64 else 0#64) + 1#64) >>> 2 = y at *
    rw [← hNat] at hlow hhigh ⊢
    by_cases hcarry : y &&& 1#64 <<< (p + 1) = 0#64
    · refine ⟨y, a.toNat.log2, ?_, by omega, ?_, by omega, rfl⟩
      · rw [if_neg (not_not.2 hcarry)]
        simp
      · rw [Bits.and_singleBit_eq_zero_iff hmant] at hcarry
        by_contra hge'
        rw [Nat.div_eq_of_lt_le (k := 1) (by omega) (by omega)] at hcarry
        omega
    · have hfull : y.toNat = 2 * 2 ^ p := by
        rw [Bits.and_singleBit_eq_zero_iff hmant] at hcarry
        by_contra hne
        exact hcarry (by rw [Nat.div_eq_of_lt (by omega)])
      have hhalf : (y >>> 1).toNat = 2 ^ p := by
        rw [Bits.toNat_shiftRight, hfull]
        omega
      refine ⟨y >>> 1, a.toNat.log2 + 1, ?_, by omega, by omega, by omega, ?_⟩
      · rw [if_pos hcarry, hshift y (n := 1) (k := 1) rfl (by decide) (by omega), ok_bind]
        simp
      · rw [hhalf, hfull, Nat.add_mul]
        omega
  · obtain ⟨hlow, hhigh⟩ := lead_bit ha hlog
    have hcap : 2 ^ (p + 1) ≤ 2 ^ 64 := Nat.pow_le_pow_right (by decide) (by omega)
    have hNat : (a <<< (p - a.toNat.log2)).toNat = a.toNat * 2 ^ (p - a.toNat.log2) :=
      Bits.toNat_shiftLeft_of_lt (Nat.lt_of_lt_of_le hhigh hcap)
    refine ⟨a <<< (p - a.toNat.log2), a.toNat.log2, ?_, by rwa [hNat], by rwa [hNat], by omega, ?_⟩
    · rw [if_neg (by omega), shl_ok a (k := p - a.toNat.log2) (by omega) (by omega)]
      simp
    · rw [hNat, roundLead, if_pos hlog]

/-! ## Packing -/

/-- The sign term of the packing. -/
def signTerm (negative : Bool) : BitVec 32 := if negative then 0x80000000#32 else 0#32

/-- Three terms over disjoint bits of a 32-bit word: a sign, an exponent field
from bit `k` on and a fraction below it. -/
theorem fields32_toNat (negative : Bool) {k e : Nat} {y : BitVec 32} (hy : y.toNat < 2 ^ k)
    (hk : k ≤ 31) (he : e < 2 ^ (31 - k)) :
    (signTerm negative ||| BitVec.ofInt 32 e <<< k ||| y).toNat =
      (if negative then 2 ^ 31 else 0) + e * 2 ^ k + y.toNat := by
  have hpow : 2 ^ 31 = 2 ^ (31 - k) * 2 ^ k := by
    rw [← Nat.pow_add, Nat.sub_add_cancel hk]
  have hfit : e * 2 ^ k < 2 ^ 31 := by
    rw [hpow]
    exact Nat.mul_lt_mul_of_pos_right he (Nat.two_pow_pos k)
  have hsmall : (BitVec.ofInt 32 e).toNat = e := by
    have hle : 2 ^ (31 - k) ≤ 2 ^ 31 := Nat.pow_le_pow_right (by decide) (Nat.sub_le _ _)
    rw [BitVec.ofInt_natCast, BitVec.toNat_ofNat, Nat.mod_eq_of_lt (by omega)]
  have hexp : (BitVec.ofInt 32 e <<< k).toNat = e * 2 ^ k := by
    rw [Bits.toNat_shiftLeft_of_lt, hsmall]
    rw [hsmall]
    omega
  have hsign : (signTerm negative).toNat = (if negative then 1 else 0) * 2 ^ 31 := by
    cases negative <;> rfl
  have hhead : (BitVec.ofInt 32 e <<< k ||| signTerm negative).toNat =
      e * 2 ^ k + (if negative then 1 else 0) * 2 ^ 31 := by
    rw [Bits.toNat_or_disjoint (hexp.symm ▸ hfit) hsign, hexp, hsign]
  have hmultiple : (BitVec.ofInt 32 e <<< k ||| signTerm negative).toNat =
      (e + (if negative then 1 else 0) * 2 ^ (31 - k)) * 2 ^ k := by
    rw [hhead, hpow, Nat.add_mul, Nat.mul_assoc]
  rw [BitVec.or_comm, BitVec.or_comm (signTerm negative), Bits.toNat_or_disjoint hy hmultiple,
    hhead]
  split_ifs <;> ring

theorem doubleBits_toNat {shiftRight : BitVec 64 → Int → Checked (BitVec 64)}
    (hshift : IsShiftRight shiftRight) (negative : Bool) {e : Nat} {r : BitVec 64} (he : e ≤ 64)
    (hge : 2 ^ 52 ≤ r.toNat) (hlt : r.toNat < 2 ^ 53) :
    ∃ w : BitVec 64, doubleBits shiftRight (signTerm negative) e r = .ok w ∧
      w.toNat = Precision.double.format.pack negative ((e + 1022) * 2 ^ 52 + r.toNat) := by
  have hfraction :
      ((r >>> 32).setWidth 32 &&& 0x000FFFFF#32).toNat = r.toNat / 2 ^ 32 % 2 ^ 20 := by
    rw [Bits.toNat_and_lowMask (k := 20) rfl, BitVec.toNat_setWidth, Bits.toNat_shiftRight]
    omega
  have hhigh := fields32_toNat negative (k := 20) (e := e + 1023)
    (y := (r >>> 32).setWidth 32 &&& 0x000FFFFF#32) (by omega) (by decide) (by omega)
  refine ⟨(signTerm negative ||| BitVec.ofInt 32 (e + 1023 : Nat) <<< 20 |||
    ((r >>> 32).setWidth 32 &&& 0x000FFFFF#32) : BitVec 32) ++ (r.setWidth 32 : BitVec 32), ?_, ?_⟩
  · unfold doubleBits
    rw [hshift r (n := 32) (k := 32) rfl (by decide) (by omega)]
    rfl
  · have hsign : Precision.double.format.signBit = 2 ^ 63 := rfl
    have hinf : Precision.double.format.infPattern = 2047 * 2 ^ 52 := rfl
    rw [BitVec.toNat_append, ← Nat.shiftLeft_add_eq_or_of_lt (BitVec.isLt _), Nat.shiftLeft_eq,
      hhigh, hfraction, BitVec.toNat_setWidth, Format.pack, hsign, hinf]
    split_ifs <;> omega

theorem floatBits_toNat (negative : Bool) {e : Nat} {r : BitVec 64} (he : e ≤ 64)
    (hge : 2 ^ 23 ≤ r.toNat) (hlt : r.toNat < 2 ^ 24) :
    (floatBits (signTerm negative) e r).toNat =
      Precision.single.format.pack negative ((e + 126) * 2 ^ 23 + r.toNat) := by
  have hfraction : (r.setWidth 32 &&& 0x007FFFFF#32).toNat = r.toNat % 2 ^ 23 := by
    rw [Bits.toNat_and_lowMask (k := 23) rfl, BitVec.toNat_setWidth]
    omega
  have hword := fields32_toNat negative (k := 23) (e := e + 127)
    (y := r.setWidth 32 &&& 0x007FFFFF#32) (by omega) (by decide) (by omega)
  have hsign : Precision.single.format.signBit = 2 ^ 31 := rfl
  have hinf : Precision.single.format.infPattern = 255 * 2 ^ 23 := rfl
  unfold floatBits
  rw [show (e : Int) + 127 = ((e + 127 : Nat) : Int) by push_cast; rfl, hword, hfraction,
    Format.pack, hsign, hinf]
  split_ifs <;> omega

/-! ## The four bodies -/

/-- The rounded word of an integer. -/
def integerWord (P : Precision) (v : Int) : Nat :=
  P.format.pack (decide (v < 0))
    (roundPattern P.significandBits 0 (v.natAbs * 2 ^ P.format.scale))

theorem mul_lt_zero_iff_of_pos {u v : Int} (hv : 0 < v) : u * v < 0 ↔ u < 0 := by
  constructor
  · intro h
    by_contra hu
    exact absurd h (Int.not_lt.2 (Int.mul_nonneg (Int.not_lt.1 hu) (Int.le_of_lt hv)))
  · intro h
    exact Int.mul_neg_of_neg_of_pos h hv

/-- The same word from the integer in units of the least value. -/
theorem pack_units_eq_integerWord (P : Precision) (v : Int) :
    P.format.pack (decide (v * 2 ^ P.format.scale < 0))
      (roundPattern P.significandBits 0 (v * 2 ^ P.format.scale).natAbs) = integerWord P v := by
  have hpos : (0 : Int) < 2 ^ P.format.scale := by positivity
  simp only [integerWord, mul_lt_zero_iff_of_pos hpos, Int.natAbs_mul, Int.natAbs_pow]
  rfl

/-- It is the integer, rounded to nearest, ties to even. -/
theorem integerWord_roundsTo (P : Precision) (v : Int) :
    P.format.RoundsTo (v : ℚ) (integerWord P v) := by
  have h := P.format.pack_roundsTo (v * 2 ^ P.format.scale) 0
  have hcast : ((v * 2 ^ P.format.scale : Int) : ℚ) / 2 ^ (P.format.scale + 0) = v := by
    push_cast
    rw [Nat.add_zero, mul_div_assoc, div_self (by positivity), mul_one]
  rw [hcast, P.format_significandBits, pack_units_eq_integerWord] at h
  exact h

theorem integerWord_lt (P : Precision) (v : Int) : integerWord P v < 2 * P.format.signBit :=
  Format.pack_lt ..

@[simp] theorem integerWord_zero (P : Precision) : integerWord P 0 = 0 := by
  simp [integerWord, Format.pack]

/-- The branch-free absolute value of the signed bodies, and their sign
term. -/
theorem signed_abs (a : BitVec 64) :
    ((a ^^^ a.sshiftRight 63) - a.sshiftRight 63).toNat = a.toInt.natAbs ∧
      (a.sshiftRight 63).setWidth 32 &&& 0x80000000#32 = signTerm (decide (a.toInt < 0)) := by
  have hlt := a.isLt
  rcases Nat.lt_or_ge a.toNat (2 ^ 63) with h | h
  · rw [Bits.signMask_of_not_msb (w := 64) h, BitVec.xor_zero, BitVec.sub_zero,
      BitVec.toInt_eq_toNat_of_lt (by omega)]
    exact ⟨by omega, by simp [signTerm]⟩
  · have hint : a.toInt = (a.toNat : Int) - 2 ^ 64 := by
      rw [BitVec.toInt_eq_toNat_cond, if_neg (by omega)]
      norm_num
    rw [Bits.signMask_of_msb (w := 64) h, BitVec.xor_allOnes, hint]
    constructor
    · rw [BitVec.toNat_sub, BitVec.toNat_not, BitVec.toNat_allOnes]
      omega
    · rw [signTerm, if_pos (by rw [decide_eq_true_iff]; omega)]
      decide

theorem natAbs_toInt_pos {a : BitVec 64} (ha : a ≠ 0#64) : 0 < a.toInt.natAbs := by
  rw [Int.natAbs_pos]
  intro h
  exact ha (BitVec.eq_of_toInt_eq (by simpa using h))

/-- The exponent bias is added to the field and to the exponent alike. -/
theorem rebias {p e r l m : Nat} (h : e * 2 ^ p + r = l * 2 ^ p + m) (c : Nat) :
    (e + c) * 2 ^ p + r = (l + c) * 2 ^ p + m := by
  rw [Nat.add_mul, Nat.add_mul]
  omega

/-- The double-precision body on a positive magnitude. -/
theorem doubleBody_ok {shiftRight : BitVec 64 → Int → Checked (BitVec 64)}
    (hshift : IsShiftRight shiftRight) (negative : Bool) {a : BitVec 64} (ha : 0 < a.toNat) :
    ∃ w : BitVec 64,
      (do
        let (r, e) ← roundToMantissa shiftRight 53 a
        doubleBits shiftRight (signTerm negative) e r) = .ok w ∧
      w.toNat = Precision.double.format.pack negative
        (roundPattern 52 0 (a.toNat * 2 ^ Precision.double.format.scale)) := by
  obtain ⟨r, e, hround, hge, hlt, he, hvalue⟩ := roundToMantissa_ok hshift (p := 52) (by decide) ha
  obtain ⟨w, hw, hwNat⟩ := doubleBits_toNat hshift negative he hge hlt
  refine ⟨w, ?_, ?_⟩
  · rw [show (53 : Int) = ((52 : Nat) : Int) + 1 from rfl, hround]
    exact hw
  · have hscale : Precision.double.format.scale = 1074 := rfl
    rw [hwNat, roundPattern_natural ha (by rw [hscale]; decide), hscale,
      Nat.add_sub_assoc (show 52 ≤ 1074 by decide), rebias hvalue]

/-- The single-precision body on a positive magnitude. -/
theorem singleBody_ok {shiftRight : BitVec 64 → Int → Checked (BitVec 64)}
    (hshift : IsShiftRight shiftRight) (negative : Bool) {a : BitVec 64} (ha : 0 < a.toNat) :
    ∃ w : BitVec 32,
      (do
        let (r, e) ← roundToMantissa shiftRight 24 a
        return floatBits (signTerm negative) e r) = .ok w ∧
      w.toNat = Precision.single.format.pack negative
        (roundPattern 23 0 (a.toNat * 2 ^ Precision.single.format.scale)) := by
  obtain ⟨r, e, hround, hge, hlt, he, hvalue⟩ := roundToMantissa_ok hshift (p := 23) (by decide) ha
  refine ⟨floatBits (signTerm negative) e r, ?_, ?_⟩
  · rw [show (24 : Int) = ((23 : Nat) : Int) + 1 from rfl, hround]
    rfl
  · have hscale : Precision.single.format.scale = 149 := rfl
    rw [floatBits_toNat negative he hge hlt, roundPattern_natural ha (by rw [hscale]; decide),
      hscale, Nat.add_sub_assoc (show 23 ≤ 149 by decide), rebias hvalue]

theorem floatdidfSoft_ok (a : BitVec 64) :
    ∃ r : BitVec 64, floatdidfSoft a = .ok r ∧ r.toNat = integerWord .double a.toInt := by
  unfold floatdidfSoft
  split_ifs with ha
  · refine ⟨0#64, rfl, ?_⟩
    rw [ha, BitVec.toInt_zero, integerWord_zero, BitVec.toNat_zero]
  · obtain ⟨habs, hsign⟩ := signed_abs a
    obtain ⟨w, hw, hwNat⟩ := doubleBody_ok isShiftRight_sar (decide (a.toInt < 0))
      (a := (a ^^^ a.sshiftRight 63) - a.sshiftRight 63) (habs ▸ natAbs_toInt_pos ha)
    refine ⟨w, ?_, ?_⟩
    · rw [sar_ok a (n := 64 - 1) (k := 63) rfl (by decide), ok_bind, hsign]
      exact hw
    · rw [hwNat, habs]
      rfl

theorem floatundidfSoft_ok (a : BitVec 64) :
    ∃ r : BitVec 64, floatundidfSoft a = .ok r ∧ r.toNat = integerWord .double a.toNat := by
  unfold floatundidfSoft
  split_ifs with ha
  · refine ⟨0#64, rfl, ?_⟩
    rw [ha, BitVec.toNat_zero, Nat.cast_zero, integerWord_zero]
  · obtain ⟨w, hw, hwNat⟩ := doubleBody_ok isShiftRight_shr false (a := a)
      (Nat.pos_of_ne_zero fun h => ha (BitVec.eq_of_toNat_eq h))
    refine ⟨w, hw, ?_⟩
    rw [hwNat, integerWord, decide_eq_false (by omega), Int.natAbs_natCast]
    rfl

theorem floatdisf_ok (a : BitVec 64) :
    ∃ r : BitVec 32, floatdisf a = .ok r ∧ r.toNat = integerWord .single a.toInt := by
  unfold floatdisf
  split_ifs with ha
  · refine ⟨0#32, rfl, ?_⟩
    rw [ha, BitVec.toInt_zero, integerWord_zero, BitVec.toNat_zero]
  · obtain ⟨habs, hsign⟩ := signed_abs a
    obtain ⟨w, hw, hwNat⟩ := singleBody_ok isShiftRight_sar (decide (a.toInt < 0))
      (a := (a ^^^ a.sshiftRight 63) - a.sshiftRight 63) (habs ▸ natAbs_toInt_pos ha)
    refine ⟨w, ?_, ?_⟩
    · rw [sar_ok a (n := 64 - 1) (k := 63) rfl (by decide), ok_bind, hsign]
      exact hw
    · rw [hwNat, habs]
      rfl

theorem floatundisf_ok (a : BitVec 64) :
    ∃ r : BitVec 32, floatundisf a = .ok r ∧ r.toNat = integerWord .single a.toNat := by
  unfold floatundisf
  split_ifs with ha
  · refine ⟨0#32, rfl, ?_⟩
    rw [ha, BitVec.toNat_zero, BitVec.toNat_zero, Nat.cast_zero, integerWord_zero]
  · obtain ⟨w, hw, hwNat⟩ := singleBody_ok isShiftRight_shr false (a := a)
      (Nat.pos_of_ne_zero fun h => ha (BitVec.eq_of_toNat_eq h))
    refine ⟨w, hw, ?_⟩
    rw [hwNat, integerWord, decide_eq_false (by omega), Int.natAbs_natCast]
    rfl

end Cheesecloth.Builtins.FloatConv
