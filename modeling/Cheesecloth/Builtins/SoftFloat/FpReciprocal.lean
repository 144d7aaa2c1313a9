import Cheesecloth.CodeLib.Reciprocal
import Cheesecloth.Builtins.SoftFloat.FpLib

/-!
# The reciprocal of `fp_div_impl.inc`

`__divXf3__` multiplies by a reciprocal of the divisor, which it finds by
Newton's iteration.  The number of iterations and their width are macros:

* `divsf3.c` makes three native iterations on 32-bit words.
* `divdf3.c` makes three iterations on the upper halves of the words, and a
  last one on whole words, with the products put together from halves.

The iterations on halves of `double` are those on whole words of `float`, so
`newtonIteration` serves both.  In both the estimate is then lowered, so that
it is never above the reciprocal.

`reciprocal_error` is the result: for every divisor the estimate is below the
reciprocal, by less than what the quotient can bear.
-/

namespace Cheesecloth.Builtins.SoftFloat

open CodeLib CodeLib.Reciprocal

/-! ## The estimate -/

/-- `C` and `C_hw`: `3/4 + 1/sqrt(2)` without its integer part. -/
def reciprocalC : BitVec 32 := 0x7504F333#32

/-- One iteration: the body of `REPEAT_N_TIMES`. -/
def newtonIteration (b_UQ1 x_UQ0 : BitVec 32) : BitVec 32 :=
  let corr_UQ1 := (0#64 - (x_UQ0.setWidth 64 * b_UQ1.setWidth 64) >>> 32).setWidth 32
  ((x_UQ0.setWidth 64 * corr_UQ1.setWidth 64) >>> 31).setWidth 32

/-- The initial approximation and three iterations. -/
def reciprocal32 (b_UQ1 : BitVec 32) : BitVec 32 :=
  (newtonIteration b_UQ1)^[3] (reciprocalC - b_UQ1)

/-- `x_UQ0` of `divsf3.c`. -/
def reciprocalSingle (bSignificand : BitVec 32) : BitVec 32 :=
  let b_UQ1 := bSignificand <<< 8
  let x_UQ0 := reciprocal32 b_UQ1
  let x_UQ0 := x_UQ0 - 2#32
  -- `RECIPROCAL_PRECISION`
  x_UQ0 - 10#32

/-- The last iteration of `divdf3.c`, on halves of words. -/
def emulatedIteration (b_UQ1_hw x_UQ0_hw : BitVec 32) (blo : BitVec 64) : BitVec 64 :=
  let b_UQ1_hw := b_UQ1_hw.setWidth 64
  let x_UQ0_hw := x_UQ0_hw.setWidth 64
  let corr_UQ1 := 0#64 - (x_UQ0_hw * b_UQ1_hw + (x_UQ0_hw * blo) >>> 32 - 1#64)
  let lo_corr := loWord corr_UQ1
  let hi_corr := corr_UQ1 >>> 32
  (x_UQ0_hw * hi_corr) <<< 1 + (x_UQ0_hw * lo_corr) >>> 31 - 2#64

/-- `x_UQ0` of `divdf3.c`. -/
def reciprocalDouble (bSignificand : BitVec 64) : BitVec 64 :=
  let b_UQ1 := bSignificand <<< 11
  let b_UQ1_hw := (bSignificand >>> 21).setWidth 32
  let x_UQ0_hw := reciprocal32 b_UQ1_hw
  let x_UQ0_hw := x_UQ0_hw - 1#32
  let x_UQ0 := emulatedIteration b_UQ1_hw x_UQ0_hw (loWord b_UQ1)
  let x_UQ0 := x_UQ0 - 1#64
  let x_UQ0 := x_UQ0 - 2#64
  -- `RECIPROCAL_PRECISION`
  x_UQ0 - 220#64

/-- The estimate that the dividend is multiplied by. -/
def reciprocal : (P : Precision) → P.Rep → P.Rep
  | .single, bSignificand => reciprocalSingle bSignificand
  | .double, bSignificand => reciprocalDouble bSignificand

/-! ## Three iterations -/

theorem newtonIteration_toNat (b x : BitVec 32) :
    (newtonIteration b x).toNat = newton 32 b.toNat x.toNat := by
  have hx := x.isLt
  have hb := b.isLt
  have hprod : ∀ y z : Nat, y < 2 ^ 32 → z < 2 ^ 32 → y * z < 2 ^ 64 := by
    intro y z hy hz
    nlinarith
  have hxb := hprod _ _ hx hb
  have hword : ∀ y : BitVec 32, (y.setWidth 64).toNat = y.toNat := fun y => by
    rw [BitVec.toNat_setWidth, Nat.mod_eq_of_lt (by have := y.isLt; omega)]
  have hcorr : (0#64 - (x.setWidth 64 * b.setWidth 64) >>> 32).toNat % 2 ^ 32 =
      (2 ^ 32 - x.toNat * b.toNat / 2 ^ 32) % 2 ^ 32 := by
    rw [BitVec.toNat_sub, Bits.toNat_shiftRight, BitVec.toNat_mul, hword, hword,
      Nat.mod_eq_of_lt hxb, BitVec.toNat_zero]
    omega
  unfold newtonIteration newton
  rw [BitVec.toNat_setWidth, Bits.toNat_shiftRight, BitVec.toNat_mul, hword, hword,
    BitVec.toNat_setWidth, hcorr, Nat.mod_eq_of_lt (hprod _ _ hx (Nat.mod_lt _ (by decide)))]

/-- Next to `b = 1` the last iteration rounds up to the next power of two, which
wraps. -/
theorem reciprocal32_wraps :
    reciprocal32 0x80000000#32 = 0#32 ∧ reciprocal32 0x80000001#32 = 0xFFFFFFFF#32 := by
  decide

theorem start_toNat {b : BitVec 32} (hb : 2 ^ 31 ≤ b.toNat) :
    (reciprocalC - b).toNat = 2 ^ 32 + reciprocalC.toNat - b.toNat := by
  have hlt := b.isLt
  have hC : reciprocalC.toNat = 0x7504F333 := rfl
  rw [BitVec.toNat_sub, hC]
  omega

/-- Three iterations: the error is below eight units, and an estimate above the
reciprocal is so by at most two.  The estimate is the word up to a wrap. -/
theorem reciprocal32_error {b : BitVec 32} (hb : 2 ^ 31 ≤ b.toNat) :
    ∃ X : Nat, X % 2 ^ 32 = (reciprocal32 b).toNat ∧ X ≤ 2 ^ 32 ∧
      -2 / 2 ^ 32 ≤ error 32 b.toNat X ∧ error 32 b.toNat X ≤ 8 / 2 ^ 32 := by
  have hlt := b.isLt
  rcases Nat.lt_or_ge b.toNat (2 ^ 31 + 2) with hnear | hfar
  · obtain h | h : b.toNat = 2 ^ 31 ∨ b.toNat = 2 ^ 31 + 1 := by omega
    · obtain rfl : b = 0x80000000#32 := BitVec.eq_of_toNat_eq h
      refine ⟨2 ^ 32, by rw [reciprocal32_wraps.1]; rfl, by decide, ?_⟩
      norm_num [error]
    · obtain rfl : b = 0x80000001#32 := BitVec.eq_of_toNat_eq h
      refine ⟨2 ^ 32 - 1, by rw [reciprocal32_wraps.2]; rfl, by decide, ?_⟩
      norm_num [error]
  · have hC : reciprocalC.toNat = 0x7504F333 := rfl
    have hstart := error_start (w := 32) (C := reciprocalC.toNat) (k := 429 / 10000) (by decide) hb
      (Nat.le_of_lt hlt) (by rw [hC]; norm_num) (by rw [hC]; norm_num)
    rw [← start_toNat hb] at hstart
    have hstep : ∀ {x : BitVec 32} {k : ℚ} (k' : ℚ), |error 32 b.toNat x.toNat| ≤ k → k ≤ 1 / 16 →
        2 * k ^ 2 + 1 / 2 ^ 32 ≤ k' → 2 / 2 ^ 32 ≤ k' →
        |error 32 b.toNat (newtonIteration b x).toNat| ≤ k' := by
      intro x k k' hx hk hup hlow
      obtain ⟨hlower, hupper⟩ := newton_error (by decide) hfar hlt x.isLt hx hk
      rw [newtonIteration_toNat, abs_le]
      rw [neg_div] at hlower
      exact ⟨by linarith, by linarith⟩
    have h1 := hstep (37 / 10000) hstart (by norm_num) (by norm_num) (by norm_num)
    have h2 := hstep (28 / 1000000) h1 (by norm_num) (by norm_num) (by norm_num)
    obtain ⟨hlower, hupper⟩ := newton_error (by decide) hfar hlt (BitVec.isLt _) h2 (by norm_num)
    refine ⟨(reciprocal32 b).toNat, Nat.mod_eq_of_lt (BitVec.isLt _),
      Nat.le_of_lt (BitVec.isLt _), ?_⟩
    have hthird : (reciprocal32 b).toNat = newton 32 b.toNat
        (newtonIteration b (newtonIteration b (reciprocalC - b))).toNat :=
      newtonIteration_toNat b _
    rw [hthird]
    exact ⟨hlower, hupper.trans (by norm_num)⟩

/-! ## Single precision -/

theorem reciprocalSingle_error {b : BitVec 32} (hge : 2 ^ 23 ≤ b.toNat) (hlt : b.toNat < 2 ^ 24) :
    0 < error 32 (b.toNat * 2 ^ 8) (reciprocalSingle b).toNat ∧
      error 32 (b.toNat * 2 ^ 8) (reciprocalSingle b).toNat ≤ 1 / 2 ^ 26 := by
  have hb : (b <<< 8).toNat = b.toNat * 2 ^ 8 := Bits.toNat_shiftLeft_of_lt (by omega)
  obtain ⟨X, hX, -, hlow, hhigh⟩ := reciprocal32_error (b := b <<< 8) (by omega)
  rw [hb] at hlow hhigh
  have hbounds := bounds_of_error (B := b.toNat * 2 ^ 8) (m := 2) (n := 8) (by decide) (by omega)
    (by omega) hlow hhigh
  have hword : (reciprocalSingle b).toNat = X - 12 := by
    unfold reciprocalSingle
    rw [BitVec.toNat_sub, BitVec.toNat_sub, ← hX]
    simp only [BitVec.toNat_ofNat]
    omega
  rw [hword, error_sub (by omega)]
  norm_num at hlow hhigh ⊢
  constructor <;> linarith

/-! ## Double precision -/

/-- The lower half of the divisor lowers the reciprocal by at most two units of
a half. -/
theorem error_of_half {Bh blo : Nat} (H : Nat) (hBh : 2 ^ 31 ≤ Bh) (hblo : blo < 2 ^ 32) :
    error 32 Bh H - 2 / 2 ^ 32 ≤ error 64 (Bh * 2 ^ 32 + blo) (H * 2 ^ 32) ∧
      error 64 (Bh * 2 ^ 32 + blo) (H * 2 ^ 32) ≤ error 32 Bh H := by
  have hBh' : (2 : ℚ) ^ 31 ≤ Bh := by exact_mod_cast hBh
  have hblo' : (blo : ℚ) ≤ 2 ^ 32 := by exact_mod_cast Nat.le_of_lt hblo
  have hblo0 : (0 : ℚ) ≤ blo := Nat.cast_nonneg blo
  have hdiff : error 32 Bh H - error 64 (Bh * 2 ^ 32 + blo) (H * 2 ^ 32) =
      2 ^ 31 * blo / (Bh * (Bh * 2 ^ 32 + blo)) := by
    have hpos : (0 : ℚ) < Bh := by linarith
    unfold error
    push_cast
    field_simp
    ring
  have hnonneg : (0 : ℚ) ≤ 2 ^ 31 * blo / (Bh * (Bh * 2 ^ 32 + blo)) := by positivity
  have hle : (2 ^ 31 * blo / (Bh * (Bh * 2 ^ 32 + blo)) : ℚ) ≤ 2 / 2 ^ 32 := by
    rw [div_le_div_iff₀ (by positivity) (by norm_num)]
    nlinarith
  rw [← hdiff] at hnonneg hle
  exact ⟨by linarith, by linarith⟩

/-- The last iteration, on the estimate `H` of the upper half: the correction
is one unit more than the truncated product says. -/
theorem lastIteration_error {B H M c Y : Nat} (hB : 2 ^ 63 ≤ B) (hB' : B < 2 ^ 64)
    (hH : H ≤ 2 ^ 32) (hM : M = H * B / 2 ^ 32) (hc : c + M = 2 ^ 64 + 1)
    (hY : Y = H * c / 2 ^ 31) (hlow : -9 / 2 ^ 32 ≤ error 64 B (H * 2 ^ 32))
    (hhigh : error 64 B (H * 2 ^ 32) ≤ 9 / 2 ^ 32) :
    -4 / 2 ^ 64 ≤ error 64 B Y ∧ error 64 B Y ≤ 163 / 2 ^ 64 := by
  have hdiv := Nat.div_add_mod' (H * B) (2 ^ 32)
  have hmod := Nat.mod_lt (H * B) (show 0 < 2 ^ 32 by decide)
  have hcut := Nat.div_add_mod' (H * c) (2 ^ 31)
  have hcut' := Nat.mod_lt (H * c) (show 0 < 2 ^ 31 by decide)
  rw [← hM] at hdiv
  rw [← hY] at hcut
  have hxB : H * 2 ^ 32 * B = H * B * 2 ^ 32 := Nat.mul_right_comm ..
  have hxc : H * 2 ^ 32 * c = H * c * 2 ^ 32 := Nat.mul_right_comm ..
  obtain ⟨hlower, hupper⟩ := error_step (w := 64) (B := B) (x := H * 2 ^ 32) (c := c) (y := Y)
    (g := 2) (by decide) (by omega) (by rw [hxB]; omega) (by rw [hxB]; omega)
    (by rw [hxc]; omega) (by rw [hxc]; omega)
  have hsq : error 64 B (H * 2 ^ 32) ^ 2 ≤ (9 / 2 ^ 32) ^ 2 :=
    sq_le_sq' (by rw [← neg_div]; exact hlow) hhigh
  have hb2 : (B : ℚ) / 2 ^ (64 - 1) ≤ 2 := by
    have : (B : ℚ) ≤ 2 ^ 64 := by exact_mod_cast Nat.le_of_lt hB'
    rw [div_le_iff₀ (by norm_num)]
    exact this.trans (by norm_num)
  have hbsq : (B : ℚ) / 2 ^ (64 - 1) * error 64 B (H * 2 ^ 32) ^ 2 ≤ 2 * (9 / 2 ^ 32) ^ 2 :=
    mul_le_mul hb2 hsq (sq_nonneg _) (by norm_num)
  have hbsq' : 0 ≤ (B : ℚ) / 2 ^ (64 - 1) * error 64 B (H * 2 ^ 32) ^ 2 := by positivity
  have hx1 : ((H * 2 ^ 32 : Nat) : ℚ) / 2 ^ 64 ≤ 1 := by
    rw [div_le_one (by norm_num)]
    exact_mod_cast (show H * 2 ^ 32 ≤ 2 ^ 64 by omega)
  have hexcess : ((H * 2 ^ 32 : Nat) : ℚ) / 2 ^ 64 * (2 * (2 : Nat) / 2 ^ 64) ≤ 4 / 2 ^ 64 := by
    refine (mul_le_of_le_one_left (by positivity) hx1).trans (by norm_num)
  norm_num at hbsq hexcess hlower hupper ⊢
  exact ⟨by linarith, by linarith⟩

/-- The last iteration computes with halves of words what it would compute with
double words. -/
theorem emulatedIteration_toNat (bh x : BitVec 32) {blo : BitVec 64} {c : Nat}
    (hblo : blo.toNat < 2 ^ 32)
    (hc : c + (x.toNat * bh.toNat + x.toNat * blo.toNat / 2 ^ 32) = 2 ^ 64 + 1) (hc' : c < 2 ^ 64) :
    (emulatedIteration bh x blo).toNat = (x.toNat * c / 2 ^ 31 + (2 ^ 64 - 2)) % 2 ^ 64 := by
  have hmul : ∀ {y z : BitVec 64}, y.toNat < 2 ^ 32 → z.toNat < 2 ^ 32 →
      (y * z).toNat = y.toNat * z.toNat := by
    intro y z hy hz
    rw [BitVec.toNat_mul, Nat.mod_eq_of_lt (by nlinarith)]
  have hword : ∀ y : BitVec 32, (y.setWidth 64).toNat = y.toNat ∧ y.toNat < 2 ^ 32 := fun y => by
    have hy := y.isLt
    exact ⟨by rw [BitVec.toNat_setWidth, Nat.mod_eq_of_lt (by omega)], hy⟩
  unfold emulatedIteration
  dsimp only
  obtain ⟨hx, hxlt⟩ := hword x
  obtain ⟨hbh, hbhlt⟩ := hword bh
  rw [← hx] at hxlt hc ⊢
  rw [← hbh] at hbhlt hc
  generalize x.setWidth 64 = x' at *
  generalize bh.setWidth 64 = bh' at *
  have hcorr : (0#64 - (x' * bh' + (x' * blo) >>> 32 - 1#64)).toNat = c := by
    have h1 := hmul hxlt hbhlt
    have h2 := hmul hxlt hblo
    rw [BitVec.toNat_sub, BitVec.toNat_sub, BitVec.toNat_add, Bits.toNat_shiftRight, h1, h2]
    simp only [BitVec.toNat_ofNat]
    omega
  generalize 0#64 - (x' * bh' + (x' * blo) >>> 32 - 1#64) = corr at *
  have hhi : (corr >>> 32).toNat = c / 2 ^ 32 := by rw [Bits.toNat_shiftRight, hcorr]
  have hlo : (loWord corr).toNat = c % 2 ^ 32 := by rw [loWord_toNat, hcorr]
  have h1 := hmul hxlt (show (corr >>> 32).toNat < 2 ^ 32 by omega)
  have h2 := hmul hxlt (show (loWord corr).toNat < 2 ^ 32 by omega)
  have hproduct : x'.toNat * c = x'.toNat * (c / 2 ^ 32) * 2 ^ 32 + x'.toNat * (c % 2 ^ 32) := by
    rw [Nat.mul_assoc, ← Nat.mul_add, Nat.div_add_mod']
  rw [hhi] at h1
  rw [hlo] at h2
  rw [BitVec.toNat_sub, BitVec.toNat_add, Bits.toNat_shiftRight, BitVec.toNat_shiftLeft,
    Nat.shiftLeft_eq, h1, h2, hproduct]
  simp only [BitVec.toNat_ofNat]
  generalize x'.toNat * (c / 2 ^ 32) = p at *
  generalize x'.toNat * (c % 2 ^ 32) = q at *
  omega

theorem reciprocalDouble_error {b : BitVec 64} (hge : 2 ^ 52 ≤ b.toNat) (hlt : b.toNat < 2 ^ 53) :
    0 < error 64 (b.toNat * 2 ^ 11) (reciprocalDouble b).toNat ∧
      error 64 (b.toNat * 2 ^ 11) (reciprocalDouble b).toNat ≤ 1 / 2 ^ 55 := by
  have hhalf : ((b >>> 21).setWidth 32).toNat = b.toNat / 2 ^ 21 := by
    rw [BitVec.toNat_setWidth, Bits.toNat_shiftRight, Nat.mod_eq_of_lt (by omega)]
  have hlo : (loWord (b <<< 11)).toNat = b.toNat * 2 ^ 11 % 2 ^ 32 := by
    rw [loWord_toNat, Bits.toNat_shiftLeft_of_lt (by omega)]
  obtain ⟨X, hX, hXle, hlow, hhigh⟩ := reciprocal32_error (b := (b >>> 21).setWidth 32) (by omega)
  rw [hhalf] at hlow hhigh
  have hbounds := bounds_of_error (B := b.toNat / 2 ^ 21) (m := 2) (n := 8) (by decide) (by omega)
    (by omega) hlow hhigh
  obtain ⟨H, rfl⟩ : ∃ H, X = H + 1 := ⟨X - 1, by omega⟩
  have hH : (reciprocal32 ((b >>> 21).setWidth 32) - 1#32).toNat = H := by
    rw [BitVec.toNat_sub, ← hX]
    simp only [BitVec.toNat_ofNat]
    omega
  have hHerror : error 32 (b.toNat / 2 ^ 21) H =
      error 32 (b.toNat / 2 ^ 21) (H + 1) + 1 / 2 ^ 32 := by
    have := error_sub (w := 32) (B := b.toNat / 2 ^ 21) (show 1 ≤ H + 1 by omega)
    rwa [Nat.add_sub_cancel, Nat.cast_one] at this
  have hB : b.toNat / 2 ^ 21 * 2 ^ 32 + b.toNat * 2 ^ 11 % 2 ^ 32 = b.toNat * 2 ^ 11 := by omega
  obtain ⟨hlow', hhigh'⟩ := error_of_half H (show 2 ^ 31 ≤ b.toNat / 2 ^ 21 by omega)
    (Nat.mod_lt (b.toNat * 2 ^ 11) (by decide))
  rw [hB, hHerror] at hlow' hhigh'
  have hsplit : H * (b.toNat / 2 ^ 21) + H * (b.toNat * 2 ^ 11 % 2 ^ 32) / 2 ^ 32 =
      H * (b.toNat * 2 ^ 11) / 2 ^ 32 := by
    conv_rhs => rw [← hB, Nat.mul_add, ← Nat.mul_assoc, Nat.mul_comm _ (2 ^ 32)]
    rw [Nat.mul_add_div (by decide)]
  obtain ⟨M, hM⟩ : ∃ M, M = H * (b.toNat * 2 ^ 11) / 2 ^ 32 := ⟨_, rfl⟩
  have hMge : 2 ≤ M := by
    rw [hM, Nat.le_div_iff_mul_le (by decide)]
    exact Nat.mul_le_mul (show 2 ≤ H by omega) (show 2 ^ 32 ≤ b.toNat * 2 ^ 11 by omega)
  have hMle : M ≤ 2 ^ 64 := by
    rw [hM]
    exact Nat.div_le_of_le_mul
      (Nat.mul_le_mul (show H ≤ 2 ^ 32 by omega) (show b.toNat * 2 ^ 11 ≤ 2 ^ 64 by omega))
  obtain ⟨c, hc⟩ : ∃ c, c + M = 2 ^ 64 + 1 := ⟨2 ^ 64 + 1 - M, by omega⟩
  have hlast := lastIteration_error (B := b.toNat * 2 ^ 11) (by omega) (by omega)
    (show H ≤ 2 ^ 32 by omega) hM hc rfl
    (by norm_num at hlow hlow' ⊢; linarith) (by norm_num at hhigh hhigh' ⊢; linarith)
  have hYbounds := bounds_of_error (B := b.toNat * 2 ^ 11) (m := 4) (n := 163) (by decide)
    (by omega) (by omega) hlast.1 hlast.2
  have hiteration := emulatedIteration_toNat ((b >>> 21).setWidth 32)
    (reciprocal32 ((b >>> 21).setWidth 32) - 1#32) (c := c)
    (show (loWord (b <<< 11)).toNat < 2 ^ 32 by rw [hlo]; exact Nat.mod_lt _ (by decide))
    (by rw [hhalf, hlo, hH, hsplit, ← hM, hc])
    (by omega)
  rw [hH] at hiteration
  generalize H * c / 2 ^ 31 = Y at *
  have hword : (reciprocalDouble b).toNat = Y - 225 := by
    unfold reciprocalDouble
    rw [BitVec.toNat_sub, BitVec.toNat_sub, BitVec.toNat_sub, hiteration]
    simp only [BitVec.toNat_ofNat]
    omega
  rw [hword, error_sub (by omega)]
  norm_num at hlast ⊢
  exact ⟨by linarith, by linarith⟩

/-- The estimate is below the reciprocal, by less than half a unit of the
quotient for any dividend. -/
theorem reciprocal_error {P : Precision} {b : P.Rep} (hge : 2 ^ P.significandBits ≤ b.toNat)
    (hlt : b.toNat < 2 ^ (P.significandBits + 1)) :
    0 < error P.typeWidth (b.toNat * 2 ^ P.exponentBits) (reciprocal P b).toNat ∧
      error P.typeWidth (b.toNat * 2 ^ P.exponentBits) (reciprocal P b).toNat ≤
        1 / 2 ^ (P.significandBits + 3) := by
  cases P with
  | single => exact reciprocalSingle_error hge hlt
  | double => exact reciprocalDouble_error hge hlt

end Cheesecloth.Builtins.SoftFloat
