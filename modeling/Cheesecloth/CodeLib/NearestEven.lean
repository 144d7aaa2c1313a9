import Mathlib.Data.Nat.Bitwise
import Mathlib.Tactic.Ring
import Mathlib.Tactic.Linarith

/-!
# Shifts that round and shifts that collect

Two ways to drop the low `k` bits of a natural number.

* `roundShift n k` is `n / 2 ^ k` rounded to nearest, ties to even.
* `stickyShift n k` truncates, and sets the lowest bit of the result when any
  dropped bit was set.

Code that aligns two significands drops bits with `stickyShift` and rounds
once at the end.  `roundShift_stickyShift` is why that is right: a rounding
that drops at least two more bits cannot tell the collected bits from the
dropped ones.  `stickyShift_add` and `stickyShift_sub` carry the collection
through an aligned sum and an aligned difference.
-/

namespace Cheesecloth.CodeLib

/-- `n / 2 ^ k`, rounded to nearest, ties to even. -/
def roundShift (n k : Nat) : Nat :=
  if 2 * (n % 2 ^ k) < 2 ^ k then n / 2 ^ k
  else if 2 ^ k < 2 * (n % 2 ^ k) then n / 2 ^ k + 1
  else n / 2 ^ k + n / 2 ^ k % 2

/-- `n / 2 ^ k`, with the dropped bits collected in the lowest bit. -/
def stickyShift (n k : Nat) : Nat :=
  if n % 2 ^ k = 0 then n / 2 ^ k else n / 2 ^ k / 2 * 2 + 1

/-! ## Both shifts against the truncated quotient -/

@[simp] theorem roundShift_zero (n : Nat) : roundShift n 0 = n := by
  simp [roundShift, Nat.mod_one]

@[simp] theorem zero_roundShift (k : Nat) : roundShift 0 k = 0 := by
  simp [roundShift]

@[simp] theorem stickyShift_zero (n : Nat) : stickyShift n 0 = n := by
  simp [stickyShift, Nat.mod_one]

theorem le_roundShift (n k : Nat) : n / 2 ^ k ≤ roundShift n k := by
  unfold roundShift
  split_ifs <;> omega

theorem roundShift_le (n k : Nat) : roundShift n k ≤ n / 2 ^ k + 1 := by
  unfold roundShift
  split_ifs <;> omega

/-- The quotient and the remainder of a shift in two stages. -/
theorem div_mod_two_pow_add (n k j : Nat) :
    n / 2 ^ (k + j) = n / 2 ^ k / 2 ^ j ∧
      n % 2 ^ (k + j) = n % 2 ^ k + 2 ^ k * (n / 2 ^ k % 2 ^ j) := by
  rw [Nat.pow_add]
  exact ⟨(Nat.div_div_eq_div_mul n _ _).symm, Nat.mod_mul⟩

/-- The remainder of the dropped bits is divisible exactly when the two stages
are. -/
theorem mod_two_pow_add_eq_zero_iff (n k j : Nat) :
    n % 2 ^ (k + j) = 0 ↔ n % 2 ^ k = 0 ∧ n / 2 ^ k % 2 ^ j = 0 := by
  have hpos := Nat.two_pow_pos k
  rw [(div_mod_two_pow_add n k j).2, Nat.add_eq_zero_iff, Nat.mul_eq_zero]
  constructor
  · rintro ⟨h, h0 | h1⟩
    · omega
    · exact ⟨h, h1⟩
  · rintro ⟨h, h1⟩
    exact ⟨h, Or.inr h1⟩

/-- A multiple of the dropped power is shifted exactly. -/
theorem roundShift_mul_two_pow (n k i : Nat) :
    roundShift (n * 2 ^ i) (k + i) = roundShift n k := by
  have hpos := Nat.two_pow_pos i
  have hlt : ∀ a b : Nat, 2 * (a * 2 ^ i) < b * 2 ^ i ↔ 2 * a < b := by
    intro a b
    rw [← Nat.mul_assoc, Nat.mul_lt_mul_right hpos]
  have hgt : ∀ a b : Nat, b * 2 ^ i < 2 * (a * 2 ^ i) ↔ b < 2 * a := by
    intro a b
    rw [← Nat.mul_assoc, Nat.mul_lt_mul_right hpos]
  unfold roundShift
  rw [Nat.pow_add, Nat.mul_div_mul_right _ _ hpos, Nat.mul_mod_mul_right]
  simp only [hlt, hgt]

theorem roundShift_mul_two_pow_self (n k : Nat) : roundShift (n * 2 ^ k) k = n := by
  simpa using roundShift_mul_two_pow n 0 k

/-- An even multiple of the dropped power is kept. -/
theorem roundShift_add_even_mul (c n k : Nat) (hc : c % 2 = 0) :
    roundShift (c * 2 ^ k + n) k = c + roundShift n k := by
  have hpos := Nat.two_pow_pos k
  unfold roundShift
  rw [Nat.mul_comm c, Nat.mul_add_mod, Nat.mul_add_div hpos]
  split_ifs <;> omega

/-- What is below half of the dropped power is lost. -/
theorem roundShift_eq_zero {n k : Nat} (h : 2 * n < 2 ^ k) : roundShift n k = 0 := by
  rw [roundShift, Nat.mod_eq_of_lt (by omega), if_pos h, Nat.div_eq_of_lt (by omega)]

/-! ## The collected bit -/

/-- Away from its lowest bit the collecting shift is the truncated one. -/
theorem stickyShift_div_two (n k : Nat) : stickyShift n k / 2 = n / 2 ^ k / 2 := by
  unfold stickyShift
  split_ifs <;> omega

theorem stickyShift_div_two_pow (n k : Nat) {j : Nat} (hj : 0 < j) :
    stickyShift n k / 2 ^ j = n / 2 ^ k / 2 ^ j := by
  obtain ⟨i, rfl⟩ := Nat.exists_eq_add_one.2 hj
  rw [Nat.pow_succ', ← Nat.div_div_eq_div_mul, ← Nat.div_div_eq_div_mul, stickyShift_div_two]

/-- The collecting shift is at least the truncated one, and at most one
above. -/
theorem le_stickyShift (n k : Nat) : n / 2 ^ k ≤ stickyShift n k := by
  unfold stickyShift
  split_ifs <;> omega

theorem stickyShift_le (n k : Nat) : stickyShift n k ≤ n / 2 ^ k + 1 := by
  unfold stickyShift
  split_ifs <;> omega

theorem stickyShift_lt {n k m : Nat} (hm : 0 < m) (h : n < 2 ^ (k + m)) :
    stickyShift n k < 2 ^ m := by
  have hzero : stickyShift n k / 2 ^ m = 0 := by
    rw [stickyShift_div_two_pow n k hm, Nat.div_div_eq_div_mul, ← Nat.pow_add]
    exact Nat.div_eq_of_lt h
  exact Nat.lt_of_div_eq_zero (Nat.two_pow_pos m) hzero

theorem stickyShift_le_of_le_mul {n k c : Nat} (h : n ≤ c * 2 ^ k) : stickyShift n k ≤ c := by
  have hpos := Nat.two_pow_pos k
  have hsplit := Nat.div_add_mod' n (2 ^ k)
  unfold stickyShift
  split_ifs with hexact
  · exact Nat.div_le_of_le_mul (by rwa [Nat.mul_comm])
  · have hlt : n / 2 ^ k < c := by
      rw [Nat.div_lt_iff_lt_mul hpos]
      refine Nat.lt_of_le_of_ne h fun heq => hexact ?_
      rw [heq, Nat.mul_mod_left]
    omega

/-- Nothing is collected to zero but zero. -/
theorem eq_zero_of_stickyShift_eq_zero {n k : Nat} (h : stickyShift n k = 0) : n = 0 := by
  have hsplit := Nat.div_add_mod' n (2 ^ k)
  unfold stickyShift at h
  split_ifs at h with hexact
  rwa [h, hexact, Nat.zero_mul, Nat.zero_add, eq_comm] at hsplit

/-- Collecting in two stages collects once. -/
theorem stickyShift_stickyShift (n k j : Nat) :
    stickyShift (stickyShift n k) j = stickyShift n (k + j) := by
  cases j with
  | zero => simp
  | succ j =>
    have hzero : stickyShift n k % 2 ^ (j + 1) = 0 ↔
        n % 2 ^ k = 0 ∧ n / 2 ^ k % 2 ^ (j + 1) = 0 := by
      by_cases hk : n % 2 ^ k = 0
      · simp [stickyShift, hk]
      · have hodd : stickyShift n k % 2 = 1 := by
          rw [stickyShift, if_neg hk]
          omega
        have hmod : stickyShift n k % 2 ^ (j + 1) % 2 = stickyShift n k % 2 :=
          Nat.mod_mod_of_dvd _ ⟨2 ^ j, Nat.pow_succ'⟩
        simp only [hk, false_and, iff_false]
        omega
    have hiff : stickyShift n k % 2 ^ (j + 1) = 0 ↔ n % 2 ^ (k + (j + 1)) = 0 :=
      hzero.trans (mod_two_pow_add_eq_zero_iff n k (j + 1)).symm
    have hdiv := stickyShift_div_two_pow n k (Nat.succ_pos j)
    rw [stickyShift.eq_1 (stickyShift n k), stickyShift.eq_1 n (k + (j + 1)), hdiv,
      (div_mod_two_pow_add n k (j + 1)).1]
    by_cases h : n % 2 ^ (k + (j + 1)) = 0
    · rw [if_pos h, if_pos (hiff.2 h)]
    · rw [if_neg h, if_neg (fun h' => h (hiff.1 h'))]

/-- Setting the lowest bit commutes with dropping high bits. -/
private theorem setBit_mod_two_mul (m c : Nat) :
    (m / 2 * 2 + 1) % (2 * c) = m % (2 * c) / 2 * 2 + 1 := by
  have hhalf : (m / 2 * 2 + 1) / 2 = m / 2 := by omega
  rw [Nat.mod_mul, Nat.mod_mul, hhalf]
  omega

/-- A rounding that drops at least two bits after the collected one does not
see the difference. -/
theorem roundShift_stickyShift (n k : Nat) {j : Nat} (hj : 2 ≤ j) :
    roundShift (stickyShift n k) j = roundShift n (k + j) := by
  obtain ⟨i, rfl⟩ : ∃ i, j = i + 2 := ⟨j - 2, by omega⟩
  have hpow : 2 ^ (i + 2) = 4 * 2 ^ i := by rw [Nat.pow_add, Nat.mul_comm]
  have hk := Nat.two_pow_pos k
  have hi := Nat.two_pow_pos i
  have ht := Nat.mod_lt n hk
  have hr := Nat.mod_lt (n / 2 ^ k) (Nat.two_pow_pos (i + 2))
  have hdiv := stickyShift_div_two_pow n k (show 0 < i + 2 by omega)
  obtain ⟨hdiv', hmod'⟩ := div_mod_two_pow_add n k (i + 2)
  unfold roundShift
  rw [hdiv, hdiv', hmod', Nat.pow_add 2 k (i + 2)]
  by_cases hexact : n % 2 ^ k = 0
  · have hsticky : stickyShift n k = n / 2 ^ k := by rw [stickyShift, if_pos hexact]
    have hlt : 2 * (2 ^ k * (n / 2 ^ k % 2 ^ (i + 2))) < 2 ^ k * 2 ^ (i + 2) ↔
        2 * (n / 2 ^ k % 2 ^ (i + 2)) < 2 ^ (i + 2) := by
      rw [Nat.mul_left_comm, Nat.mul_lt_mul_left hk]
    have hgt : 2 ^ k * 2 ^ (i + 2) < 2 * (2 ^ k * (n / 2 ^ k % 2 ^ (i + 2))) ↔
        2 ^ (i + 2) < 2 * (n / 2 ^ k % 2 ^ (i + 2)) := by
      rw [Nat.mul_left_comm, Nat.mul_lt_mul_left hk]
    rw [hsticky, hexact, Nat.zero_add]
    simp only [hlt, hgt]
  · -- the remainder is odd on one side and strictly inside a step on the other
    have hmod : stickyShift n k % 2 ^ (i + 2) = n / 2 ^ k % 2 ^ (i + 2) / 2 * 2 + 1 := by
      rw [stickyShift, if_neg hexact, Nat.pow_succ', setBit_mod_two_mul]
    rw [hmod]
    generalize n / 2 ^ k % 2 ^ (i + 2) = r at *
    rw [hpow] at *
    rcases Nat.lt_or_ge r (2 * 2 ^ i) with hlow | hhigh
    · have hle : 2 ^ k * (r + 1) ≤ 2 ^ k * (2 * 2 ^ i) := Nat.mul_le_mul_left _ hlow
      have hprod : 2 ^ k * (4 * 2 ^ i) = 2 * (2 ^ k * (2 * 2 ^ i)) := by ring
      rw [Nat.mul_add, Nat.mul_one] at hle
      rw [if_pos (by omega), if_pos (by omega)]
    · have hle : 2 ^ k * (2 * 2 ^ i) ≤ 2 ^ k * r := Nat.mul_le_mul_left _ hhigh
      have hprod : 2 ^ k * (4 * 2 ^ i) = 2 * (2 ^ k * (2 * 2 ^ i)) := by ring
      rw [if_neg (by omega), if_pos (by omega), if_neg (by omega), if_pos (by omega)]

/-! ## Aligned sums and differences -/

/-- The collected bit of a sum whose other operand has no low bits. -/
theorem stickyShift_add (a b k : Nat) (ha : a % 2 = 0) :
    stickyShift (a * 2 ^ k + b) k = a + stickyShift b k := by
  have hpos := Nat.two_pow_pos k
  unfold stickyShift
  rw [Nat.mul_comm, Nat.mul_add_mod, Nat.mul_add_div hpos]
  split_ifs <;> omega

/-- The collected bit of a difference whose minuend has no low bits. -/
theorem stickyShift_sub (a b k : Nat) (ha : a % 2 = 0) (hb : b ≤ a * 2 ^ k) :
    stickyShift (a * 2 ^ k - b) k = a - stickyShift b k := by
  have hpos := Nat.two_pow_pos k
  have hsplit := Nat.div_add_mod' b (2 ^ k)
  have hlt := Nat.mod_lt b hpos
  have hle : b / 2 ^ k ≤ a := by
    rw [Nat.div_le_iff_le_mul_add_pred hpos, Nat.mul_comm]
    omega
  unfold stickyShift
  by_cases hzero : b % 2 ^ k = 0
  · have hdiff : a * 2 ^ k - b = (a - b / 2 ^ k) * 2 ^ k := by
      rw [Nat.sub_mul]
      omega
    rw [hdiff, Nat.mul_mod_left, if_pos rfl, if_pos hzero, Nat.mul_div_cancel _ hpos]
  · have hne : b / 2 ^ k ≠ a := by
      intro h
      rw [h] at hsplit
      omega
    have hdiff : a * 2 ^ k - b = 2 ^ k * (a - b / 2 ^ k - 1) + (2 ^ k - b % 2 ^ k) := by
      obtain ⟨d, hd⟩ : ∃ d, a = b / 2 ^ k + 1 + d := ⟨a - b / 2 ^ k - 1, by omega⟩
      have hmul : a * 2 ^ k = b / 2 ^ k * 2 ^ k + 2 ^ k + 2 ^ k * d := by
        rw [hd]
        ring
      rw [show a - b / 2 ^ k - 1 = d by omega]
      omega
    have hrem : (2 ^ k - b % 2 ^ k) < 2 ^ k := by omega
    rw [hdiff, Nat.mul_add_mod, Nat.mul_add_div hpos, Nat.mod_eq_of_lt hrem,
      Nat.div_eq_of_lt hrem, if_neg (by omega), if_neg hzero]
    omega

end Cheesecloth.CodeLib
