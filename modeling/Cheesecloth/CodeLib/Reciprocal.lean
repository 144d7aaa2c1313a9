import Mathlib.Algebra.Order.Field.Basic
import Mathlib.Algebra.Order.Ring.Abs
import Mathlib.Data.Rat.Cast.Order
import Mathlib.Tactic.FieldSimp
import Mathlib.Tactic.Linarith
import Mathlib.Tactic.NormNum
import Mathlib.Tactic.Positivity
import Mathlib.Tactic.Ring

/-!
# Reciprocals by Newton's iteration, in fixed point

A divisor `b` in `[1, 2)` is a word `B` with one bit before the point, and an
approximation of `1 / b` is a word `x` with none.  The iteration
`x (2 - x b)` squares the error, and each step adds what its two truncations
drop.

* `error w B x` is how far `x` is below `1 / b`.
* `error_step` is one step with any truncations: the correction is too large by
  at most `g` units, and the product is cut off.
* `newton` is the step that keeps to words of `w` bits, and `newton_error` says
  that nothing wraps, except next to `b = 1`, where the reciprocal does not fit
  a word without an integer bit.
* `error_start` is the error of the linear first guess.
-/

namespace Cheesecloth.CodeLib.Reciprocal

/-- How far `x / 2 ^ w` is below the reciprocal of `B / 2 ^ (w - 1)`. -/
def error (w B x : Nat) : ℚ := 2 ^ (w - 1) / B - x / 2 ^ w

variable {w B x : Nat}

/-- A smaller approximation is further below. -/
theorem error_sub {n : Nat} (hn : n ≤ x) : error w B (x - n) = error w B x + n / 2 ^ w := by
  unfold error
  rw [Nat.cast_sub hn]
  ring

/-- What a bound of the error says about the word. -/
theorem bounds_of_error {m n : Nat} (hw : 0 < w) (hB : 2 ^ (w - 1) ≤ B) (hB' : B ≤ 2 ^ w)
    (hlow : -(m : ℚ) / 2 ^ w ≤ error w B x) (hhigh : error w B x ≤ n / 2 ^ w) :
    2 ^ (w - 1) ≤ x + n ∧ x ≤ 2 ^ w + m := by
  obtain ⟨v, rfl⟩ : ∃ v, w = v + 1 := ⟨w - 1, by omega⟩
  have hh : (0 : ℚ) < 2 ^ v := by positivity
  have hge : (2 : ℚ) ^ v ≤ B := by exact_mod_cast hB
  have hle : (B : ℚ) ≤ 2 * 2 ^ v := by
    rw [← pow_succ']
    exact_mod_cast hB'
  have hone : (2 : ℚ) ^ v / B ≤ 1 := (div_le_one (by linarith)).2 hge
  have hhalf : (1 : ℚ) / 2 ≤ 2 ^ v / B := by
    rw [div_le_div_iff₀ (by norm_num) (by linarith)]
    linarith
  unfold error at hlow hhigh
  rw [Nat.add_sub_cancel] at *
  have hlower : (1 : ℚ) / 2 ≤ (x + n) / 2 ^ (v + 1) := by
    rw [add_div]
    linarith
  have hupper : (x : ℚ) / 2 ^ (v + 1) ≤ (2 ^ (v + 1) + m) / 2 ^ (v + 1) := by
    rw [add_div, div_self (by positivity)]
    rw [neg_div] at hlow
    linarith
  rw [div_le_div_iff_of_pos_right (by positivity)] at hupper
  rw [div_le_div_iff₀ (by norm_num) (by positivity), pow_succ'] at hlower
  have hlower' : (2 : ℚ) ^ v ≤ x + n := by linarith
  exact ⟨by exact_mod_cast hlower', by exact_mod_cast hupper⟩

section Step

/-- The error after a step, with the excess of the correction `c` and the cut of
the product `x c`. -/
theorem error_identity {h b x c y : ℚ} (hh : 0 < h) (hb : 0 < b) :
    h / b - y / (2 * h) = b / h * (h / b - x / (2 * h)) ^ 2 -
      x / (2 * h) * ((c * (2 * h) + x * b - 4 * (h * h)) / (2 * h * h)) +
        (x * c - y * h) / (2 * h * h) := by
  field_simp
  ring

variable {c y g : Nat}

/-- One step: the error is squared, the excess of the correction lowers it and
the cut of the product raises it. -/
theorem error_step (hw : 0 < w) (hB : 0 < B) (hc : 2 ^ (2 * w) ≤ c * 2 ^ w + x * B)
    (hc' : c * 2 ^ w + x * B ≤ 2 ^ (2 * w) + g * 2 ^ w) (hy : y * 2 ^ (w - 1) ≤ x * c)
    (hy' : x * c < (y + 1) * 2 ^ (w - 1)) :
    (B : ℚ) / 2 ^ (w - 1) * error w B x ^ 2 - (x : ℚ) / 2 ^ w * (2 * g / 2 ^ w) ≤ error w B y ∧
      error w B y ≤ (B : ℚ) / 2 ^ (w - 1) * error w B x ^ 2 + 1 / 2 ^ w := by
  obtain ⟨v, rfl⟩ : ∃ v, w = v + 1 := ⟨w - 1, by omega⟩
  have hB' : (0 : ℚ) < B := Nat.cast_pos.2 hB
  have hh : (0 : ℚ) < 2 ^ v := by positivity
  have hlow : (2 : ℚ) ^ (2 * (v + 1)) ≤ c * 2 ^ (v + 1) + x * B := by exact_mod_cast hc
  have hhigh : (c : ℚ) * 2 ^ (v + 1) + x * B ≤ 2 ^ (2 * (v + 1)) + g * 2 ^ (v + 1) := by
    exact_mod_cast hc'
  have hcut : (y : ℚ) * 2 ^ v ≤ x * c := by exact_mod_cast hy
  have hcut' : (x : ℚ) * c < (y + 1) * 2 ^ v := by exact_mod_cast hy'
  rw [show (2 : ℚ) ^ (2 * (v + 1)) = 4 * (2 ^ v * 2 ^ v) by ring, pow_succ'] at hlow hhigh
  unfold error
  rw [Nat.add_sub_cancel, pow_succ' (2 : ℚ) v]
  generalize (2 : ℚ) ^ v = h at *
  have hexcess : (c * (2 * h) + x * B - 4 * (h * h)) / (2 * h * h) ≤ 2 * g / (2 * h) := by
    rw [show (2 * g / (2 * h) : ℚ) = g * (2 * h) / (2 * h * h) by field_simp]
    exact div_le_div_of_nonneg_right (by linarith) (by positivity)
  have hexcess' : 0 ≤ (c * (2 * h) + x * B - 4 * (h * h)) / (2 * h * h) :=
    div_nonneg (by linarith) (by positivity)
  have hdrop : (x * c - y * h) / (2 * h * h) ≤ 1 / (2 * h) := by
    rw [show (1 / (2 * h) : ℚ) = h / (2 * h * h) by field_simp]
    exact div_le_div_of_nonneg_right (by linarith) (by positivity)
  have hdrop' : 0 ≤ (x * c - y * h) / (2 * h * h) := div_nonneg (by linarith) (by positivity)
  have hx : (0 : ℚ) ≤ x / (2 * h) := by positivity
  have hlower := mul_le_mul_of_nonneg_left hexcess hx
  have hupper := mul_nonneg hx hexcess'
  have herror := error_identity (x := (x : ℚ)) (c := (c : ℚ)) (y := (y : ℚ)) hh hB'
  constructor <;> linarith

end Step

/-! ## The step on words -/

/-- The step on words of `w` bits. -/
def newton (w B x : Nat) : Nat :=
  x * ((2 ^ w - x * B / 2 ^ w) % 2 ^ w) / 2 ^ (w - 1) % 2 ^ w

/-- Away from `b = 1` an approximation that is not much too large fits a
word. -/
theorem lt_of_error (hw : 2 < w) (hB : 2 ^ (w - 1) + 2 ≤ B) (he : -2 / 2 ^ w ≤ error w B x) :
    x < 2 ^ w := by
  obtain ⟨v, rfl⟩ : ∃ v, w = v + 1 := ⟨w - 1, by omega⟩
  have hv : (4 : ℚ) ≤ 2 ^ v := by
    exact_mod_cast Nat.pow_le_pow_right (n := 2) (by decide) (show 2 ≤ v by omega)
  have hlow : (2 : ℚ) ^ v + 2 ≤ B := by exact_mod_cast hB
  have hrecip : (2 : ℚ) ^ v / B < 1 - 2 / (2 * 2 ^ v) := by
    rw [div_lt_iff₀ (by linarith), show (1 - 2 / (2 * 2 ^ v) : ℚ) = (2 ^ v - 1) / 2 ^ v by
      field_simp, div_mul_eq_mul_div, lt_div_iff₀ (by linarith)]
    nlinarith
  have hlt : (x : ℚ) / (2 * 2 ^ v) < 1 := by
    unfold error at he
    rw [Nat.add_sub_cancel, pow_succ' (2 : ℚ) v, neg_div] at he
    linarith
  rw [div_lt_one (by linarith), ← pow_succ'] at hlt
  exact_mod_cast hlt

/-- The step keeps to its words, and squares the error up to the truncations. -/
theorem newton_error {k : ℚ} (hw : 2 < w) (hB : 2 ^ (w - 1) + 2 ≤ B) (hB' : B < 2 ^ w)
    (hx : x < 2 ^ w) (hk : |error w B x| ≤ k) (hk' : k ≤ 1 / 16) :
    -2 / 2 ^ w ≤ error w B (newton w B x) ∧ error w B (newton w B x) ≤ 2 * k ^ 2 + 1 / 2 ^ w := by
  have hpow := Nat.two_pow_pos w
  have hhalf : 2 ^ w = 2 * 2 ^ (w - 1) := by
    rw [← Nat.pow_succ']
    congr 1
    omega
  have hsquare : 2 ^ (2 * w) = 2 ^ w * 2 ^ w := by rw [Nat.two_mul, Nat.pow_add]
  have hb2 : (B : ℚ) / 2 ^ (w - 1) ≤ 2 := by
    rw [div_le_iff₀ (by positivity)]
    exact_mod_cast (hhalf ▸ Nat.le_of_lt hB')
  have hx1 : (x : ℚ) / 2 ^ w ≤ 1 := by
    rw [div_le_one (by positivity)]
    exact_mod_cast Nat.le_of_lt hx
  -- the product of `x` and `b` is positive, so that its negative does not wrap
  have hlarge : 2 ^ w ≤ x * B := by
    have hrecip : (1 : ℚ) / 2 ≤ 2 ^ (w - 1) / B := by
      have hBpos : (0 : ℚ) < B := Nat.cast_pos.2 (by omega)
      rw [div_le_div_iff₀ (by norm_num) hBpos, one_mul, mul_comm]
      exact_mod_cast (hhalf ▸ Nat.le_of_lt hB')
    have hle := (le_abs_self _).trans hk
    unfold error at hle
    have hge : (7 : ℚ) / 16 ≤ x / 2 ^ w := by linarith
    rw [div_le_div_iff₀ (by norm_num) (by positivity)] at hge
    have hge' : 7 * 2 ^ w ≤ x * 16 := by exact_mod_cast hge
    have h4 : 2 ^ 2 ≤ 2 ^ (w - 1) := Nat.pow_le_pow_right (by decide) (by omega)
    nlinarith
  have hprod : x * B < 2 ^ w * 2 ^ w := Nat.mul_lt_mul'' hx hB'
  have hdiv := Nat.div_add_mod' (x * B) (2 ^ w)
  have hmod := Nat.mod_lt (x * B) hpow
  have hM : 1 ≤ x * B / 2 ^ w := (Nat.one_le_div_iff hpow).2 hlarge
  have hM' : x * B / 2 ^ w < 2 ^ w := Nat.div_lt_of_lt_mul hprod
  have hcorr : (2 ^ w - x * B / 2 ^ w) % 2 ^ w = 2 ^ w - x * B / 2 ^ w :=
    Nat.mod_eq_of_lt (by omega)
  obtain ⟨c, hc⟩ : ∃ c, 2 ^ w - x * B / 2 ^ w = c := ⟨_, rfl⟩
  have hsum : c * 2 ^ w + x * B / 2 ^ w * 2 ^ w = 2 ^ w * 2 ^ w := by
    rw [← Nat.add_mul, ← hc, Nat.sub_add_cancel (Nat.le_of_lt hM')]
  obtain ⟨hlower, hupper⟩ := error_step (w := w) (B := B) (x := x) (c := c)
    (y := x * c / 2 ^ (w - 1)) (g := 1) (by omega) (by omega) (by omega) (by omega)
    (Nat.div_mul_le_self _ _) (Nat.lt_mul_of_div_lt (Nat.lt_succ_self _) (Nat.two_pow_pos _))
  have hsq : error w B x ^ 2 ≤ k ^ 2 := sq_le_sq' (abs_le.1 hk).1 (abs_le.1 hk).2
  have hbsq : (B : ℚ) / 2 ^ (w - 1) * error w B x ^ 2 ≤ 2 * k ^ 2 :=
    mul_le_mul hb2 hsq (sq_nonneg _) (by norm_num)
  have hbsq' : 0 ≤ (B : ℚ) / 2 ^ (w - 1) * error w B x ^ 2 := by positivity
  have hexcess : (x : ℚ) / 2 ^ w * (2 / 2 ^ w) ≤ 2 / 2 ^ w :=
    mul_le_of_le_one_left (by positivity) hx1
  rw [Nat.cast_one, mul_one] at hlower
  have hbelow : -2 / 2 ^ w ≤ error w B (x * c / 2 ^ (w - 1)) := by
    rw [neg_div]
    linarith
  have hword : newton w B x = x * c / 2 ^ (w - 1) := by
    unfold newton
    rw [hcorr, hc, Nat.mod_eq_of_lt (lt_of_error hw hB hbelow)]
  rw [hword]
  exact ⟨hbelow, by linarith⟩

/-! ## The first guess -/

/-- The guess `1 + c - b / 2`.  Its error is largest at both ends of the
interval, and smallest at the square root of two. -/
theorem error_start {C : Nat} {k : ℚ} (hw : 0 < w) (hB : 2 ^ (w - 1) ≤ B) (hB' : B ≤ 2 ^ w)
    (hk : 1 / 2 - (C : ℚ) / 2 ^ w ≤ k) (hk' : (1 + (C : ℚ) / 2 ^ w - k) ^ 2 ≤ 2) :
    |error w B (2 ^ w + C - B)| ≤ k := by
  obtain ⟨v, rfl⟩ : ∃ v, w = v + 1 := ⟨w - 1, by omega⟩
  have hh : (0 : ℚ) < 2 ^ v := by positivity
  have hlow : (2 : ℚ) ^ v ≤ B := by exact_mod_cast hB
  have hhigh : (B : ℚ) ≤ 2 * 2 ^ v := by
    rw [← pow_succ']
    exact_mod_cast hB'
  unfold error
  rw [Nat.cast_sub (by omega)]
  push_cast
  rw [Nat.add_sub_cancel, pow_succ' (2 : ℚ) v] at *
  generalize (2 : ℚ) ^ v = h at *
  generalize hm : 1 + (C : ℚ) / (2 * h) - k = m at *
  -- with `t = b / 2` the error is `1 / (2 t) + t - (1 + c)`
  obtain ⟨t, ht⟩ : ∃ t : ℚ, t = B / (2 * h) := ⟨_, rfl⟩
  have ht1 : 1 / 2 ≤ t := by
    rw [ht, div_le_div_iff₀ (by norm_num) (by positivity)]
    linarith
  have ht2 : t ≤ 1 := by
    rw [ht, div_le_one (by positivity)]
    exact hhigh
  have hpos : 0 < t := by linarith
  have herror : h / B - (2 * h + C - B) / (2 * h) = (t * t + 1 / 2) / t - (m + k) := by
    have hB0 : (B : ℚ) ≠ 0 := by linarith
    rw [← hm, ht]
    field_simp
    ring
  have hupper : (t * t + 1 / 2) / t ≤ 3 / 2 := by
    rw [div_le_iff₀ hpos]
    nlinarith
  have hlower : m ≤ (t * t + 1 / 2) / t := by
    rw [le_div_iff₀ hpos]
    nlinarith [sq_nonneg (t - m / 2)]
  rw [herror, abs_le]
  constructor <;> linarith

/-! ## The quotient -/

/-- The product by a reciprocal that is a little too low is a quotient that is
too low by less than one and a half. -/
theorem quotient_bounds {p i A b : Nat} (hw : w = p + 1 + i) (hA : A < 2 ^ (p + 1)) (hb : 0 < b)
    (hpos : 0 < error w (b * 2 ^ i) x) (hle : error w (b * 2 ^ i) x ≤ 1 / 2 ^ (p + 3)) :
    x * (2 * A) / 2 ^ w * b ≤ A * 2 ^ (p + 1) ∧
      2 * (A * 2 ^ (p + 1)) < (2 * (x * (2 * A) / 2 ^ w) + 3) * b := by
  have hb' : (0 : ℚ) < b := Nat.cast_pos.2 hb
  have hW : (0 : ℚ) < 2 ^ w := by positivity
  have herror : error w (b * 2 ^ i) x = 2 ^ p / b - x / 2 ^ w := by
    unfold error
    rw [show w - 1 = p + i by omega]
    push_cast
    rw [pow_add, mul_div_mul_right _ _ (by positivity)]
  rw [herror] at hpos hle
  have hQ : ((x * (2 * A) / 2 ^ w : Nat) : ℚ) ≤ x / 2 ^ w * (2 * A) := by
    rw [div_mul_eq_mul_div, le_div_iff₀ hW]
    exact_mod_cast Nat.div_mul_le_self (x * (2 * A)) (2 ^ w)
  have hQ' : (x : ℚ) / 2 ^ w * (2 * A) < (x * (2 * A) / 2 ^ w : Nat) + 1 := by
    rw [div_mul_eq_mul_div, div_lt_iff₀ hW]
    exact_mod_cast Nat.lt_mul_of_div_lt (Nat.lt_succ_self (x * (2 * A) / 2 ^ w)) (Nat.two_pow_pos w)
  generalize x * (2 * A) / 2 ^ w = Q at *
  generalize (x : ℚ) / 2 ^ w = ξ at *
  have hApow : (A : ℚ) ≤ 2 * 2 ^ p := by
    rw [← pow_succ']
    exact_mod_cast Nat.le_of_lt hA
  have hA0 : (0 : ℚ) ≤ A := Nat.cast_nonneg A
  have hh : (0 : ℚ) < 2 ^ p := by positivity
  rw [show (2 : ℚ) ^ (p + 3) = 8 * 2 ^ p by ring] at hle
  suffices h : (Q : ℚ) * b ≤ A * (2 * 2 ^ p) ∧ 2 * (A * (2 * 2 ^ p)) < ((2 * Q + 3) * b : ℚ) by
    rw [← pow_succ'] at h
    exact_mod_cast h
  generalize (2 : ℚ) ^ p = h at *
  have hupper : ξ * b ≤ h := by
    rw [← le_div_iff₀ hb']
    linarith
  have hlower : h ≤ ξ * b + b / (8 * h) := by
    have := mul_le_mul_of_nonneg_right hle hb'.le
    rw [sub_mul, div_mul_cancel₀ _ hb'.ne', one_div, inv_mul_eq_div] at this
    linarith
  -- the share of the error in the quotient is below one half
  have hshare : 2 * A * (b / (8 * h)) ≤ b / 2 := by
    rw [mul_div_assoc', div_le_div_iff₀ (by positivity) (by norm_num)]
    nlinarith
  constructor
  · calc (Q : ℚ) * b ≤ ξ * (2 * A) * b := mul_le_mul_of_nonneg_right hQ hb'.le
      _ = 2 * A * (ξ * b) := by ring
      _ ≤ 2 * A * h := mul_le_mul_of_nonneg_left hupper (by positivity)
      _ = A * (2 * h) := by ring
  · have hprod := mul_lt_mul_of_pos_right hQ' hb'
    have := mul_le_mul_of_nonneg_left hlower (show 0 ≤ 2 * (A : ℚ) by positivity)
    linarith

end Cheesecloth.CodeLib.Reciprocal
