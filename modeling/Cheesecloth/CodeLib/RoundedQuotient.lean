import Mathlib.Tactic.Linarith
import Cheesecloth.CodeLib.BinaryFormat

/-!
# The nearest pattern of a quotient

An implementation finds a quotient of significands that may be too low, with
its remainder.  The remainder then says how to round.

* `isNearest_of_remainder`: the nearest pattern, from a quotient that is too low
  by less than one and a half.
* `TruncatedQuotient p a b s r`: the quotient `s` of `a` by `b`, with `p + 1`
  bits, and its remainder `r`.  The nearest pattern of the value that it stands
  for is given for a normal result (`TruncatedQuotient.normal`), a subnormal one
  (`TruncatedQuotient.subnormal`) and one that is at most half of the least
  value (`TruncatedQuotient.zero`).
-/

namespace Cheesecloth.CodeLib

section Remainder

variable {p k s n d r : Nat}

/-- The next pattern but one is at least two significands away. -/
theorem le_magnitude_add_two (hk : k = 0 ∨ 2 ^ p ≤ s) (hs : s < 2 ^ (p + 1)) :
    (s + 2) * 2 ^ k ≤ magnitude p (k * 2 ^ p + s + 2) := by
  rcases Nat.lt_or_ge (s + 1) (2 ^ (p + 1)) with hlt | hge
  · rw [Nat.add_assoc, magnitude_parts (hk.imp_right (by omega)) hlt]
  · -- the carry into the exponent doubles the distance
    have hp := Nat.two_pow_pos p
    have hpow : 2 ^ (p + 1) = 2 ^ p * 2 := Nat.pow_succ ..
    obtain rfl : s = 2 ^ p + 2 ^ p - 1 := by omega
    rw [show k * 2 ^ p + (2 ^ p + 2 ^ p - 1) + 2 = (k + 1) * 2 ^ p + (2 ^ p + 1) by
        rw [Nat.add_mul]; omega,
      magnitude_parts (Or.inr (Nat.le_succ _)) (by omega), Nat.pow_succ,
      show (2 ^ p + 1) * (2 ^ k * 2) = (2 ^ p + 1 + (2 ^ p + 1)) * 2 ^ k by ring]
    exact Nat.mul_le_mul_right _ (by omega)

/-- A quotient that is too low by less than one and a half, rounded by its
remainder.  The remainder may be more than the divisor, and the nearest pattern
is still the next one. -/
theorem isNearest_of_remainder (hp : 0 < p) (hk : k = 0 ∨ 2 ^ p ≤ s) (hs : s < 2 ^ (p + 1))
    (hn : n = s * d + r) (hr : 2 * r < 3 * d) :
    IsNearest p (n * 2 ^ k) d (k * 2 ^ p + s + if d < 2 * r + s % 2 then 1 else 0) := by
  have hd : 0 < d := by omega
  have hself := magnitude_parts hk (Nat.le_of_lt hs)
  have hnext : magnitude p (k * 2 ^ p + s + 1) = (s + 1) * 2 ^ k := by
    rw [Nat.add_assoc]
    exact magnitude_parts (hk.imp_right Nat.le_succ_of_le) hs
  have hparity : (k * 2 ^ p + s) % 2 = s % 2 := by
    obtain ⟨i, rfl⟩ := Nat.exists_eq_add_one.2 hp
    rw [Nat.pow_succ, ← Nat.mul_assoc]
    omega
  have hmono := (magnitude_strictMono p).monotone
  -- where any pattern lies, in units of `2 ^ k`
  have hplace : ∀ c, c = k * 2 ^ p + s ∨ c = k * 2 ^ p + s + 1 ∨
      magnitude p c * d < s * d * 2 ^ k ∨ (s * d + 2 * d) * 2 ^ k ≤ magnitude p c * d := by
    intro c
    rcases Nat.lt_or_ge c (k * 2 ^ p + s) with h | h
    · have hlt := Nat.mul_lt_mul_of_pos_right (magnitude_strictMono p h) hd
      rw [hself, Nat.mul_right_comm] at hlt
      exact Or.inr (Or.inr (Or.inl hlt))
    · rcases Nat.lt_or_ge c (k * 2 ^ p + s + 2) with h2 | h2
      · omega
      · have hge := Nat.mul_le_mul_right d ((le_magnitude_add_two hk hs).trans (hmono h2))
        rw [Nat.mul_right_comm, Nat.add_mul] at hge
        exact Or.inr (Or.inr (Or.inr hge))
  have hlow : magnitude p (k * 2 ^ p + s) * d = s * d * 2 ^ k := by
    rw [hself, Nat.mul_right_comm]
  have hhigh : magnitude p (k * 2 ^ p + s + 1) * d = s * d * 2 ^ k + d * 2 ^ k := by
    rw [hnext]
    ring
  have hnum : n * 2 ^ k = s * d * 2 ^ k + r * 2 ^ k := by
    rw [hn, Nat.add_mul]
  have hmul : ∀ x y : Nat, x < y ↔ x * 2 ^ k < y * 2 ^ k := fun x y =>
    (Nat.mul_lt_mul_right (Nat.two_pow_pos k)).symm
  have hbound := (hmul _ _).1 hr
  have hup := hmul d (2 * r)
  have hdown := hmul (2 * r) d
  simp only [Nat.add_mul, Nat.mul_assoc 2, Nat.mul_assoc 3] at hbound hup hdown hplace
  rw [hnum]
  generalize s * d * 2 ^ k = S at *
  generalize d * 2 ^ k = D at *
  generalize r * 2 ^ k = R at *
  split_ifs with hround
  · refine ⟨fun c => ?_, fun c hc => ?_⟩ <;> rw [hhigh] <;> unfold Nat.dist <;>
      rcases hplace c with rfl | rfl | h | h <;> omega
  · refine ⟨fun c => ?_, fun c hc => ?_⟩ <;> rw [Nat.add_zero, hlow] <;> unfold Nat.dist <;>
      rcases hplace c with rfl | rfl | h | h <;> omega

end Remainder

/-- Only the ratio matters. -/
theorem IsNearest.of_ratio {p n d n' d' m : Nat} (h : IsNearest p n d m) (hd : 0 < d) (hd' : 0 < d')
    (hratio : n * d' = n' * d) : IsNearest p n' d' m := by
  have hdist : ∀ c, Nat.dist n' (magnitude p c * d') * d = Nat.dist n (magnitude p c * d) * d' := by
    intro c
    rw [← Nat.dist_mul_right, ← Nat.dist_mul_right, hratio, Nat.mul_right_comm]
  refine ⟨fun c => ?_, fun c hc htie => h.even c hc ?_⟩
  · apply Nat.le_of_mul_le_mul_right _ hd
    rw [hdist, hdist]
    exact Nat.mul_le_mul_right _ (h.dist_le c)
  · apply Nat.eq_of_mul_eq_mul_right hd'
    rw [← hdist, ← hdist, htie]

/-- A quotient of `a * 2 ^ p` by `b` that is too low by less than one and a
half. -/
structure TruncatedQuotient (p a b s r : Nat) : Prop where
  ge : 2 ^ p ≤ s
  lt : s < 2 ^ (p + 1)
  eq : a * 2 ^ p = s * b + r
  rem : 2 * r < 3 * b
  le : a ≤ 2 * b

namespace TruncatedQuotient

variable {p a b s r : Nat}

theorem pos (h : TruncatedQuotient p a b s r) : 0 < b := by
  have := h.rem
  omega

/-- A quotient of `a * 2 ^ (p + 1)` that is below one, with the dividend
doubled. -/
theorem of_lt_one (hage : 2 ^ p ≤ a) (hblt : b < 2 ^ (p + 1)) (hle : s * b ≤ a * 2 ^ (p + 1))
    (hlt : 2 * (a * 2 ^ (p + 1)) < (2 * s + 3) * b) (hs : s < 2 ^ (p + 1)) :
    TruncatedQuotient p (a * 2) b s (a * 2 ^ (p + 1) - s * b) := by
  have hp := Nat.two_pow_pos p
  refine ⟨?_, hs, ?_, ?_, ?_⟩
  all_goals
    rw [Nat.pow_succ'] at *
    generalize 2 ^ p = g at *
  · -- otherwise the quotient would be off by one and a half at least
    by_contra hlow
    have h1 : (2 * s + 3) * b ≤ (2 * g + 1) * b := Nat.mul_le_mul_right b (by omega)
    have h2 : (2 * g + 1) * b ≤ (2 * g + 1) * (2 * g - 1) := Nat.mul_le_mul_left _ (by omega)
    have h3 : g * (2 * g) ≤ a * (2 * g) := Nat.mul_le_mul_right _ hage
    obtain ⟨i, rfl⟩ := Nat.exists_eq_add_one.2 hp
    rw [show 2 * (i + 1) - 1 = 2 * i + 1 by omega] at h2
    nlinarith
  · rw [Nat.mul_assoc]
    omega
  · rw [Nat.add_mul, Nat.mul_assoc] at hlt
    omega
  · by_contra hgt
    have h1 : (2 * s + 3) * b ≤ (4 * g + 1) * b := Nat.mul_le_mul_right b (by omega)
    have h2 : (b + 1) * (2 * g) ≤ a * (2 * g) := Nat.mul_le_mul_right _ (by omega)
    nlinarith

/-- A quotient of `a * 2 ^ (p + 1)` that is at least one, without its last
bit. -/
theorem of_ge_one (halt : a < 2 ^ (p + 1)) (hbge : 2 ^ p ≤ b) (hle : s * b ≤ a * 2 ^ (p + 1))
    (hlt : 2 * (a * 2 ^ (p + 1)) < (2 * s + 3) * b) (hs : 2 ^ (p + 1) ≤ s) :
    TruncatedQuotient p a b (s / 2) (a * 2 ^ p - s / 2 * b) := by
  have hp := Nat.two_pow_pos p
  have hhalf : s / 2 * b * 2 ≤ s * b := by
    rw [Nat.mul_right_comm]
    exact Nat.mul_le_mul_right b (Nat.div_mul_le_self s 2)
  have hhalf' : s * b ≤ s / 2 * b * 2 + b := by
    rw [Nat.mul_right_comm, ← Nat.succ_mul]
    exact Nat.mul_le_mul_right b (by omega)
  have hdouble : a * 2 ^ (p + 1) = 2 * (a * 2 ^ p) := by ring
  rw [Nat.add_mul, Nat.mul_assoc 2 s b] at hlt
  rw [Nat.pow_succ'] at halt hs
  refine ⟨by omega, ?_, by omega, by omega, by omega⟩
  rw [Nat.pow_succ']
  by_contra hge
  have h1 : 4 * 2 ^ p * 2 ^ p ≤ s * b := Nat.mul_le_mul (by omega) hbge
  have h2 : a * 2 ^ p < 2 * 2 ^ p * 2 ^ p := Nat.mul_lt_mul_of_pos_right halt hp
  nlinarith

/-- A result with `k` steps of the exponent. -/
theorem normal (h : TruncatedQuotient p a b s r) (hp : 0 < p) (k : Nat) :
    IsNearest p (a * 2 ^ p * 2 ^ k) b (k * 2 ^ p + s + if b < 2 * r + s % 2 then 1 else 0) :=
  isNearest_of_remainder hp (Or.inr h.ge) h.lt h.eq h.rem

/-- The quotient shifted down by `i` places, and its remainder, in halves. -/
theorem shifted (h : TruncatedQuotient p a b s r) {i j : Nat} (hij : i + j = p + 1) :
    s / 2 ^ i * (2 * b) ≤ a * 2 ^ j ∧
      2 * (a * 2 ^ j - s / 2 ^ i * (2 * b)) < 3 * (2 * b) := by
  have hi := Nat.two_pow_pos i
  have hdiv := Nat.div_add_mod' s (2 ^ i)
  have hmod := Nat.mod_lt s hi
  have heq := h.eq
  have hrem := h.rem
  have hpow : 2 * 2 ^ p = 2 ^ i * 2 ^ j := by rw [← Nat.pow_add, hij, Nat.pow_succ']
  -- everything times `2 ^ i`
  have hscaled : a * 2 ^ j * 2 ^ i =
      s / 2 ^ i * (2 * b) * 2 ^ i + (2 * (s % 2 ^ i * b) + 2 * r) := by
    calc a * 2 ^ j * 2 ^ i = 2 * (a * 2 ^ p) := by
          rw [Nat.mul_assoc, Nat.mul_comm (2 ^ j), ← hpow]
          ring
      _ = 2 * ((s / 2 ^ i * 2 ^ i + s % 2 ^ i) * b + r) := by rw [heq, hdiv]
      _ = s / 2 ^ i * (2 * b) * 2 ^ i + (2 * (s % 2 ^ i * b) + 2 * r) := by ring
  have hle : s / 2 ^ i * (2 * b) ≤ a * 2 ^ j := by
    apply Nat.le_of_mul_le_mul_right _ hi
    omega
  refine ⟨hle, ?_⟩
  obtain ⟨x, hx⟩ := Nat.exists_eq_add_of_le hle
  rw [hx, Nat.add_sub_cancel_left]
  rw [hx, Nat.add_mul] at hscaled
  apply Nat.lt_of_mul_lt_mul_right (a := 2 ^ i)
  have hmodb : (s % 2 ^ i + 1) * b ≤ 2 ^ i * b := Nat.mul_le_mul_right b hmod
  nlinarith

/-- A subnormal result: the quotient loses `i` places. -/
theorem subnormal (h : TruncatedQuotient p a b s r) (hp : 0 < p) {i j : Nat}
    (hij : i + j = p + 1) :
    IsNearest p (a * 2 ^ j) (2 * b) (s / 2 ^ i +
      if 2 * b < 2 * (a * 2 ^ j - s / 2 ^ i * (2 * b)) + s / 2 ^ i % 2 then 1 else 0) := by
  obtain ⟨hle, hrem⟩ := h.shifted hij
  have hlt : s / 2 ^ i < 2 ^ (p + 1) := Nat.lt_of_le_of_lt (Nat.div_le_self _ _) h.lt
  have hnearest := isNearest_of_remainder hp (Or.inl rfl) hlt (Nat.add_sub_of_le hle).symm hrem
  rwa [Nat.pow_zero, Nat.mul_one, Nat.zero_mul, Nat.zero_add] at hnearest

/-- A result of at most half of the least value. -/
theorem zero (h : TruncatedQuotient p a b s r) (hp : 0 < p) {i : Nat} (hi : 2 ≤ i) :
    IsNearest p a (b * 2 ^ i) 0 := by
  have hpow : 2 ^ 2 ≤ 2 ^ i := Nat.pow_le_pow_right (by decide) hi
  have hle := h.le
  have hd : 0 < b * 2 ^ i := Nat.mul_pos h.pos (Nat.two_pow_pos i)
  have hhalf : 2 * a ≤ b * 2 ^ i := by nlinarith
  have hnearest := isNearest_of_remainder (p := p) (k := 0) (s := 0) (n := a) (d := b * 2 ^ i)
    (r := a) hp (Or.inl rfl) (Nat.two_pow_pos _) (by rw [Nat.zero_mul, Nat.zero_add]) (by omega)
  rwa [Nat.pow_zero, Nat.mul_one, Nat.zero_mul, if_neg (by omega)] at hnearest

end TruncatedQuotient

end Cheesecloth.CodeLib
