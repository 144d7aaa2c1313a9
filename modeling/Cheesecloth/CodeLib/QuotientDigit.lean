import Mathlib.Tactic.Ring
import Mathlib.Tactic.Linarith

/-!
# One quotient digit of a long division

Long division in base `b` by a divisor of two digits, one quotient digit at a
time.  The partial dividend `u` is below the divisor, `x` is the next digit of
the dividend, and the digit to find is `(u * b + x) / d.value`.  The digit is
estimated by `u / d.hi`, and the estimate is then lowered while it is too
large.

* `Divisor` packs a two-digit divisor with its normalisation, `b ≤ 2 * hi`.
* `excess_iff` turns the test of the algorithm, which multiplies only by the
  low digit of the divisor, into a comparison with the whole divisor.
* `Estimate` is the invariant of the corrections.  `estimate_start` sets it
  up, `Estimate.lower` keeps it, and `Estimate.eq_of_fits` and
  `Estimate.eq_of_break` end it in the two ways the corrections end.

Normalisation is used twice: two corrections push the remainder past `b`
(`Estimate.count_lt`), and the first estimate is at most `b + 1`
(`estimate_start`).
-/

namespace Cheesecloth.CodeLib

/-- A normalised divisor of two digits in base `b`. -/
structure Divisor (b : Nat) where
  hi : Nat
  lo : Nat
  hi_lt : hi < b
  lo_lt : lo < b
  norm : b ≤ 2 * hi

namespace Divisor

variable {b : Nat} (d : Divisor b)

/-- The number that the two digits stand for. -/
def value : Nat := d.hi * b + d.lo

include d in
theorem base_pos : 0 < b := Nat.lt_of_le_of_lt (Nat.zero_le _) d.hi_lt

theorem hi_pos : 0 < d.hi := by
  have h1 := d.norm
  have h2 := base_pos d
  omega

theorem value_pos : 0 < d.value := by
  have h := Nat.mul_pos d.hi_pos (base_pos d)
  unfold value
  omega

/-- A partial dividend below the divisor has a quotient below the base. -/
theorem quotient_lt {u x : Nat} (hu : u < d.value) (hx : x < b) :
    (u * b + x) / d.value < b := by
  rw [Nat.div_lt_iff_lt_mul d.value_pos]
  calc u * b + x < u * b + b := by omega
    _ = (u + 1) * b := by ring
    _ ≤ d.value * b := Nat.mul_le_mul_right b hu
    _ = b * d.value := Nat.mul_comm _ _

/-- The product with the low digit exceeds what the remainder has room for
exactly when the product with the whole divisor exceeds the dividend. -/
theorem excess_iff {u x q rhat : Nat} (hq : q * d.hi + rhat = u) :
    b * rhat + x < q * d.lo ↔ u * b + x < q * d.value := by
  have h1 : u * b + x = q * d.hi * b + (b * rhat + x) := by rw [← hq]; ring
  have h2 : q * d.value = q * d.hi * b + q * d.lo := by unfold value; ring
  rw [h1, h2]
  exact (Nat.add_lt_add_iff_left).symm

end Divisor

/-! ## The invariant of the corrections -/

/-- The estimate `q` with remainder `rhat`, after `n` corrections. -/
structure Estimate {b : Nat} (d : Divisor b) (u x n q rhat : Nat) : Prop where
  recompose : q * d.hi + rhat = u
  quotient_le : (u * b + x) / d.value ≤ q
  rhat_ge : n * d.hi ≤ rhat
  rhat_lt : rhat < b
  q_le : q + n ≤ b + 1

section Corrections

variable {b : Nat} {d : Divisor b} {u x n q rhat : Nat}

/-- The first estimate is never too small, and by normalisation it is at most
`b + 1`. -/
theorem estimate_start (hu : u < d.value) (hx : x < b) :
    Estimate d u x 0 (u / d.hi) (u % d.hi) where
  recompose := Nat.div_add_mod' u d.hi
  quotient_le := by
    rw [Nat.le_div_iff_mul_le d.hi_pos]
    have hmul : (u * b + x) / d.value * d.value ≤ u * b + x := Nat.div_mul_le_self _ _
    have hsplit : (u * b + x) / d.value * d.value
        = (u * b + x) / d.value * d.hi * b + (u * b + x) / d.value * d.lo := by
      unfold Divisor.value; ring
    -- the quotient times `hi * b` fits below `u * b + x`, and `x` is a digit
    have hlt : (u * b + x) / d.value * d.hi * b < (u + 1) * b := by
      have : (u + 1) * b = u * b + b := by ring
      omega
    have := Nat.lt_of_mul_lt_mul_right hlt
    omega
  rhat_ge := by rw [Nat.zero_mul]; exact Nat.zero_le _
  rhat_lt := Nat.lt_trans (Nat.mod_lt _ d.hi_pos) d.hi_lt
  q_le := by
    have hlo := d.lo_lt
    have hnorm := d.norm
    have hvalue : u < d.hi * b + d.lo := hu
    have hlt : u / d.hi < b + 2 := by
      rw [Nat.div_lt_iff_lt_mul d.hi_pos]
      calc u < d.hi * b + d.lo := hvalue
        _ ≤ d.hi * b + 2 * d.hi := by omega
        _ = (b + 2) * d.hi := by ring
    omega

/-- A digit that is out of range, or whose product is too large, is above the
quotient. -/
theorem Estimate.quotient_lt_of_test (h : Estimate d u x n q rhat)
    (hu : u < d.value) (hx : x < b) (htest : b ≤ q ∨ b * rhat + x < q * d.lo) :
    (u * b + x) / d.value < q := by
  rcases htest with hq | hq
  · exact Nat.lt_of_lt_of_le (d.quotient_lt hu hx) hq
  · rw [d.excess_iff h.recompose] at hq
    rwa [Nat.div_lt_iff_lt_mul d.value_pos]

/-- At most one correction has been made whenever the test is evaluated: two
would bring the remainder to `2 * hi`, which is past the base. -/
theorem Estimate.count_lt (h : Estimate d u x n q rhat) : n < 2 := by
  by_contra hn
  have h1 : 2 * d.hi ≤ n * d.hi := Nat.mul_le_mul_right _ (by omega)
  have h2 := h.rhat_ge
  have h3 := h.rhat_lt
  have h4 := d.norm
  omega

/-- One correction that leaves the remainder a digit keeps the invariant. -/
theorem Estimate.lower (h : Estimate d u x n q rhat)
    (hlt : (u * b + x) / d.value < q) (hdigit : rhat + d.hi < b) :
    Estimate d u x (n + 1) (q - 1) (rhat + d.hi) where
  recompose := by
    obtain ⟨p, rfl⟩ := Nat.exists_eq_add_one.2 (Nat.zero_lt_of_lt hlt)
    have := h.recompose
    rw [Nat.add_mul] at this
    rw [Nat.add_sub_cancel]
    omega
  quotient_le := Nat.le_sub_one_of_lt hlt
  rhat_ge := by
    have := h.rhat_ge
    rw [Nat.add_mul]
    omega
  rhat_lt := hdigit
  q_le := by
    have := h.q_le
    have := Nat.zero_lt_of_lt hlt
    omega

/-- A digit that passes the test is the quotient. -/
theorem Estimate.eq_of_fits (h : Estimate d u x n q rhat)
    (hfits : q * d.lo ≤ b * rhat + x) : q = (u * b + x) / d.value := by
  refine Nat.le_antisymm ?_ h.quotient_le
  rw [Nat.le_div_iff_mul_le d.value_pos]
  have hnot : ¬ b * rhat + x < q * d.lo := by omega
  rw [d.excess_iff h.recompose] at hnot
  omega

/-- A correction that pushes the remainder past the base leaves the quotient:
no digit can then make the product too large. -/
theorem Estimate.eq_of_break (h : Estimate d u x n q rhat)
    (hlt : (u * b + x) / d.value < q) (hbreak : b ≤ rhat + d.hi) :
    q - 1 = (u * b + x) / d.value := by
  obtain ⟨p, rfl⟩ := Nat.exists_eq_add_one.2 (Nat.zero_lt_of_lt hlt)
  rw [Nat.add_sub_cancel]
  refine Nat.le_antisymm ?_ (Nat.le_of_lt_succ hlt)
  rw [Nat.le_div_iff_mul_le d.value_pos]
  have hrec : p * d.hi + (rhat + d.hi) = u := by
    have := h.recompose
    rw [Nat.add_mul] at this
    omega
  have hprod : p * d.lo ≤ b * (rhat + d.hi) + x := by
    have hp : p ≤ b := by
      have := h.q_le
      omega
    calc p * d.lo ≤ b * b := Nat.mul_le_mul hp (Nat.le_of_lt d.lo_lt)
      _ ≤ b * (rhat + d.hi) := Nat.mul_le_mul_left b hbreak
      _ ≤ b * (rhat + d.hi) + x := Nat.le_add_right _ _
  have hnot : ¬ b * (rhat + d.hi) + x < p * d.lo := by omega
  rw [d.excess_iff hrec] at hnot
  omega

end Corrections

/-- Two quotient digits in turn divide the three-digit dividend. -/
theorem two_digits_div_mod {b v u x y : Nat} (hv : 0 < v) :
    let r := (u * b + x) % v
    (u * b + x) / v * b + (r * b + y) / v = ((u * b + x) * b + y) / v ∧
      (r * b + y) % v = ((u * b + x) * b + y) % v := by
  intro r
  have hsplit : (u * b + x) * b + y = (r * b + y) + v * ((u * b + x) / v * b) := by
    have := Nat.mod_add_div (u * b + x) v
    calc (u * b + x) * b + y
        = (r + v * ((u * b + x) / v)) * b + y := by rw [this]
      _ = (r * b + y) + v * ((u * b + x) / v * b) := by ring
  rw [hsplit, Nat.add_mul_div_left _ _ hv, Nat.add_mul_mod_self_left]
  exact ⟨Nat.add_comm _ _, rfl⟩

end Cheesecloth.CodeLib
