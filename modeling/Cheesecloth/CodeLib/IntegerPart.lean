import Mathlib.Data.Rat.Floor
import Cheesecloth.CodeLib.Datum

/-!
# The integer part of a floating-point number

Conversion to an integer is toward zero (`truncate`).  On a word it is a
quotient of the magnitude by a power of two (`truncate_value`), and that is a
shift of the significand, to the right or to the left, by the exponent:
`magnitude_div_eq_zero`, `magnitude_div_of_lt` and `magnitude_div_of_ge`.
-/

namespace Cheesecloth.CodeLib

/-- The integer next to `x` toward zero. -/
def truncate (x : ℚ) : Int := if x < 0 then ⌈x⌉ else ⌊x⌋

theorem truncate_neg (x : ℚ) : truncate (-x) = -truncate x := by
  unfold truncate
  rcases lt_trichotomy x 0 with h | rfl | h
  · rw [if_pos h, if_neg (by linarith), Int.floor_neg]
  · simp
  · rw [if_pos (show -x < 0 by linarith), if_neg (show ¬ x < 0 by linarith), Int.ceil_neg]

theorem truncate_natCast_div (n d : Nat) : truncate ((n : ℚ) / d) = ((n / d : Nat) : Int) := by
  have hnonneg : (0 : ℚ) ≤ (n : ℚ) / d := by positivity
  rw [truncate, if_neg (not_lt.2 hnonneg), Rat.floor_natCast_div_natCast]
  rfl

/-- An integer is its own integer part. -/
theorem truncate_intCast (z : Int) : truncate (z : ℚ) = z := by
  unfold truncate
  split_ifs
  · exact Int.ceil_intCast z
  · exact Int.floor_intCast z

/-! ## The integer part of a pattern -/

section Pattern

variable {p m : Nat}

/-- A pattern with an exponent below the bias is below one. -/
theorem magnitude_div_eq_zero {B : Nat} (h : m / 2 ^ p < B) :
    magnitude p m / 2 ^ (B + p - 1) = 0 := by
  have hlt : m < m / 2 ^ p * 2 ^ p + 2 ^ p := by
    have hsplit := Nat.div_add_mod' m (2 ^ p)
    have hmod := Nat.mod_lt m (Nat.two_pow_pos p)
    omega
  rw [Nat.div_eq_zero_iff_lt (Nat.two_pow_pos _)]
  calc magnitude p m < magnitude p (m / 2 ^ p * 2 ^ p + 2 ^ p) := magnitude_strictMono _ hlt
    _ = 2 ^ (p + m / 2 ^ p) := by
        rw [magnitude_parts (Or.inr (Nat.le_refl _))
          (Nat.pow_le_pow_right (by decide) (Nat.le_succ _)), Nat.pow_add]
    _ ≤ 2 ^ (B + p - 1) := Nat.pow_le_pow_right (by decide) (by omega)

theorem magnitude_of_exponent {B e : Nat} (hB : 0 < B) (h : m / 2 ^ p = B + e) :
    magnitude p m = (2 ^ p + m % 2 ^ p) * 2 ^ (B - 1 + e) := by
  rw [magnitude, if_neg (by omega), h]
  congr 2
  omega

/-- An exponent below the significand's width cuts bits off. -/
theorem magnitude_div_of_lt {B e : Nat} (hB : 0 < B) (h : m / 2 ^ p = B + e) (he : e < p) :
    magnitude p m / 2 ^ (B + p - 1) = (2 ^ p + m % 2 ^ p) / 2 ^ (p - e) := by
  rw [magnitude_of_exponent hB h, show B + p - 1 = p - e + (B - 1 + e) by omega,
    Nat.pow_add _ (p - e), Nat.mul_div_mul_right _ _ (Nat.two_pow_pos _)]

/-- A larger one gives an integer. -/
theorem magnitude_div_of_ge {B e k : Nat} (hB : 0 < B) (h : m / 2 ^ p = B + e) (he : e = p + k) :
    magnitude p m / 2 ^ (B + p - 1) = (2 ^ p + m % 2 ^ p) * 2 ^ k := by
  rw [magnitude_of_exponent hB h, show B - 1 + e = k + (B + p - 1) by omega,
    Nat.pow_add _ k, ← Nat.mul_assoc, Nat.mul_div_cancel _ (Nat.two_pow_pos _)]

/-- The exponent bounds the integer part. -/
theorem magnitude_div_bounds {B e : Nat} (hB : 0 < B) (h : m / 2 ^ p = B + e) :
    2 ^ e ≤ magnitude p m / 2 ^ (B + p - 1) ∧ magnitude p m / 2 ^ (B + p - 1) < 2 ^ (e + 1) := by
  have hmod := Nat.mod_lt m (Nat.two_pow_pos p)
  rw [magnitude_of_exponent hB h, Nat.le_div_iff_mul_le (Nat.two_pow_pos _),
    Nat.div_lt_iff_lt_mul (Nat.two_pow_pos _), ← Nat.pow_add, ← Nat.pow_add]
  have hlow : 2 ^ (e + (B + p - 1)) = 2 ^ p * 2 ^ (B - 1 + e) := by
    rw [← Nat.pow_add]
    congr 1
    omega
  have hhigh : 2 ^ (e + 1 + (B + p - 1)) = 2 ^ (p + 1) * 2 ^ (B - 1 + e) := by
    rw [← Nat.pow_add]
    congr 1
    omega
  rw [hlow, hhigh]
  constructor
  · exact Nat.mul_le_mul_right _ (Nat.le_add_right _ _)
  · refine Nat.mul_lt_mul_of_pos_right ?_ (Nat.two_pow_pos _)
    rw [Nat.pow_succ]
    omega

end Pattern

namespace Format

variable {f : Format} {b : Nat}

/-- The integer part of a word, by its sign and its magnitude. -/
theorem truncate_value :
    truncate (f.value b) =
      if f.signBit ≤ b
      then -((magnitude f.significandBits (b % f.signBit) / 2 ^ f.scale : Nat) : Int)
      else ((magnitude f.significandBits (b % f.signBit) / 2 ^ f.scale : Nat) : Int) := by
  have hdiv := truncate_natCast_div (magnitude f.significandBits (b % f.signBit)) (2 ^ f.scale)
  rw [Nat.cast_pow, Nat.cast_ofNat] at hdiv
  unfold value units
  by_cases h : f.signBit ≤ b
  · rw [if_neg (Nat.not_lt.2 h), if_pos h, Int.cast_neg, Int.cast_natCast, neg_div, truncate_neg,
      hdiv]
  · rw [if_pos (Nat.lt_of_not_le h), if_neg h, Int.cast_natCast, hdiv]

/-- A bound on a word is a bound on its integer part. -/
theorem abs_value_lt_iff (n : Nat) :
    |f.value b| < n ↔ magnitude f.significandBits (b % f.signBit) / 2 ^ f.scale < n := by
  have hpos : (0 : ℚ) < 2 ^ f.scale := by positivity
  rw [value, abs_div, abs_of_pos hpos, ← Int.cast_abs, ← Nat.cast_natAbs, natAbs_units,
    div_lt_iff₀ hpos, Nat.div_lt_iff_lt_mul (Nat.two_pow_pos _)]
  exact_mod_cast Iff.rfl

end Format

end Cheesecloth.CodeLib
