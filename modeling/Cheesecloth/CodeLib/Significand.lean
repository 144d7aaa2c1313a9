import Cheesecloth.CodeLib.BinaryFormat

/-!
# Significands

Floating-point arithmetic on integers: operands are taken apart into a
significand and an exponent, and a result is a significand with some guard
bits below it.

* `Unpacked` describes the significand and the exponent of an operand, with
  subnormal operands shifted up.
* `Normalised` describes a significand with guard bits that stands for an
  exact result.  `Normalised.roundPattern_normal` and
  `Normalised.roundPattern_subnormal` round the exact result by rounding the
  significand.
* `alignedSum` and `alignedDiff` are the sum and the difference of two
  operands with three guard bits, when the smaller operand is shifted with a
  sticky bit.  Each of their cases is `Normalised`: `alignedSum_normalised`,
  `alignedSum_carry`, `alignedDiff_normalised` and `alignedDiff_cancel`.
-/

namespace Cheesecloth.CodeLib

/-! ## Leading bits -/

theorem log2_eq_of_div {n k : Nat} (h : n / 2 ^ k = 1) : n.log2 = k := by
  have hpos := Nat.two_pow_pos k
  have hsplit := Nat.div_add_mod' n (2 ^ k)
  have hmod := Nat.mod_lt n hpos
  rw [h] at hsplit
  rw [Nat.log2_eq_iff (by omega), Nat.pow_succ]
  omega

/-- The shift that brings the leading bit to place `q`. -/
theorem lead_bit {n q : Nat} (hpos : 0 < n) (hlog : n.log2 ≤ q) :
    2 ^ q ≤ n * 2 ^ (q - n.log2) ∧ n * 2 ^ (q - n.log2) < 2 ^ (q + 1) := by
  constructor
  · calc 2 ^ q = 2 ^ n.log2 * 2 ^ (q - n.log2) := by
          rw [← Nat.pow_add, Nat.add_sub_of_le hlog]
      _ ≤ n * 2 ^ (q - n.log2) :=
          Nat.mul_le_mul_right _ (Nat.log2_self_le (Nat.ne_of_gt hpos))
  · calc n * 2 ^ (q - n.log2) < 2 ^ (n.log2 + 1) * 2 ^ (q - n.log2) :=
          Nat.mul_lt_mul_of_pos_right Nat.lt_log2_self (Nat.two_pow_pos _)
      _ = 2 ^ (q + 1) := by
          rw [← Nat.pow_add]
          congr 1
          omega

theorem roundLead_bounds {p n : Nat} (hn : 0 < n) :
    2 ^ p ≤ roundLead p n ∧ roundLead p n ≤ 2 ^ (p + 1) := by
  unfold roundLead
  split_ifs with hlog
  · exact ⟨(lead_bit hn hlog).1, Nat.le_of_lt (lead_bit hn hlog).2⟩
  · obtain ⟨k, hk⟩ : ∃ k, n.log2 = p + k := ⟨n.log2 - p, by omega⟩
    have hself := Nat.log2_self_le (Nat.ne_of_gt hn)
    have hlt := Nat.lt_log2_self (n := n)
    rw [hk, Nat.pow_add] at hself
    rw [hk, show p + k + 1 = p + 1 + k by omega, Nat.pow_add] at hlt
    rw [hk, Nat.add_sub_cancel_left]
    exact ⟨((Nat.le_div_iff_mul_le (Nat.two_pow_pos k)).2 hself).trans (le_roundShift n k),
      (roundShift_le n k).trans (Nat.div_lt_of_lt_mul (Nat.mul_comm _ _ ▸ hlt))⟩

/-! ## Operands -/

/-- `s` and `t` are the significand and the exponent of the pattern `m`.  The
significand has its leading bit, and the least exponent is `0`. -/
structure Unpacked (p m s t : Nat) : Prop where
  ge : 2 ^ p ≤ s
  lt : s < 2 ^ (p + 1)
  value : magnitude p m * 2 ^ p = s * 2 ^ t

namespace Unpacked

variable {p m : Nat}

theorem normal (h : 0 < m / 2 ^ p) : Unpacked p m (2 ^ p + m % 2 ^ p) (m / 2 ^ p - 1 + p) where
  ge := Nat.le_add_right _ _
  lt := by
    have := Nat.mod_lt m (Nat.two_pow_pos p)
    rw [Nat.pow_succ]
    omega
  value := by
    rw [magnitude, if_neg (Nat.ne_of_gt h), Nat.pow_add, Nat.mul_assoc]

theorem subnormal (h0 : 0 < m) (h : m < 2 ^ p) :
    Unpacked p m (m * 2 ^ (p - m.log2)) m.log2 := by
  have hlog : m.log2 < p := (Nat.log2_lt (Nat.ne_of_gt h0)).2 h
  obtain ⟨hge, hlt⟩ := lead_bit h0 (Nat.le_of_lt hlog)
  refine ⟨hge, hlt, ?_⟩
  rw [magnitude, if_pos (Nat.div_eq_of_lt h), Nat.mul_assoc, ← Nat.pow_add,
    Nat.sub_add_cancel (Nat.le_of_lt hlog)]

/-- A larger operand has at least the exponent of a smaller one. -/
theorem exponent_le {m' s s' t t' : Nat} (h : Unpacked p m s t) (h' : Unpacked p m' s' t')
    (hle : m' ≤ m) : t' ≤ t ∧ s' * 2 ^ t' ≤ s * 2 ^ t := by
  have hvalue : s' * 2 ^ t' ≤ s * 2 ^ t := by
    rw [← h.value, ← h'.value]
    exact Nat.mul_le_mul_right _ ((magnitude_strictMono p).monotone hle)
  refine ⟨?_, hvalue⟩
  have hpow : 2 ^ (p + t') < 2 ^ (p + 1 + t) := by
    rw [Nat.pow_add, Nat.pow_add _ (p + 1)]
    calc 2 ^ p * 2 ^ t' ≤ s' * 2 ^ t' := Nat.mul_le_mul_right _ h'.ge
      _ ≤ s * 2 ^ t := hvalue
      _ < 2 ^ (p + 1) * 2 ^ t := Nat.mul_lt_mul_of_pos_right h.lt (Nat.two_pow_pos t)
  have := (Nat.pow_lt_pow_iff_right (by decide)).1 hpow
  omega

/-- The product of two operands. -/
theorem mul_value {m' s s' t t' : Nat} (h : Unpacked p m s t) (h' : Unpacked p m' s' t') :
    magnitude p m * magnitude p m' * 2 ^ (2 * p) = s * s' * 2 ^ (t + t') := by
  calc magnitude p m * magnitude p m' * 2 ^ (2 * p)
      = magnitude p m * 2 ^ p * (magnitude p m' * 2 ^ p) := by ring
    _ = s * s' * 2 ^ (t + t') := by
        rw [h.value, h'.value]
        ring

/-- The leading bit of the product is at one of two places. -/
theorem mul_bounds {m' s s' t t' : Nat} (h : Unpacked p m s t) (h' : Unpacked p m' s' t') :
    2 ^ (2 * p) ≤ s * s' ∧ s * s' < 2 ^ (2 * p + 2) := by
  constructor
  · rw [Nat.two_mul, Nat.pow_add]
    exact Nat.mul_le_mul h.ge h'.ge
  · rw [show 2 * p + 2 = p + 1 + (p + 1) by omega, Nat.pow_add]
    exact Nat.mul_lt_mul'' h.lt h'.lt

end Unpacked

/-! ## Significands with guard bits -/

/-- `s` has `g` guard bits and stands for `n / 2 ^ t`: it has the leading bit
of a normal significand, and a rounding that drops at least the guard bits
gives what it gives on `n`. -/
structure Normalised (p g s n t : Nat) : Prop where
  ge : 2 ^ (p + g) ≤ s
  lt : s < 2 ^ (p + g + 1)
  order : n.log2 = p + g + t
  round : ∀ i, g ≤ i → roundShift s i = roundShift n (t + i)

namespace Normalised

variable {p g s n t j : Nat}

/-- The nearest pattern of a normal result. -/
theorem roundPattern_normal (h : Normalised p g s n t) (hj : j ≤ g + t) :
    roundPattern p j n = (g + t - j) * 2 ^ p + roundShift s g := by
  have hdropped : dropped p j n = g + t - j := by
    unfold dropped
    rw [h.order]
    omega
  unfold roundPattern
  rw [hdropped, h.round g (Nat.le_refl g), show g + t - j + j = t + g by omega]

/-- The nearest pattern of a subnormal result. -/
theorem roundPattern_subnormal (h : Normalised p g s n t) (hj : g + t ≤ j) :
    roundPattern p j n = roundShift s (j - t) := by
  have hdropped : dropped p j n = 0 := by
    unfold dropped
    rw [h.order]
    omega
  unfold roundPattern
  rw [hdropped, Nat.zero_mul, Nat.zero_add, Nat.zero_add, h.round (j - t) (by omega),
    show t + (j - t) = j by omega]

/-! ### Where they come from -/

/-- A result that is kept exactly. -/
theorem exact (hge : 2 ^ (p + g) ≤ s) (hlt : s < 2 ^ (p + g + 1)) : Normalised p g s s 0 where
  ge := hge
  lt := hlt
  order := by
    rw [Nat.add_zero, Nat.log2_eq_iff (by have := Nat.two_pow_pos (p + g); omega)]
    exact ⟨hge, hlt⟩
  round := fun i _ => by rw [Nat.zero_add]

theorem pos (h : Normalised p g s n t) : 0 < n := by
  rcases Nat.eq_zero_or_pos n with rfl | hn
  · have hlead : 2 ^ p ≤ s / 2 ^ g := by
      rw [Nat.le_div_iff_mul_le (Nat.two_pow_pos g), ← Nat.pow_add]
      exact h.ge
    have hround := h.round g (Nat.le_refl g)
    have hle := le_roundShift s g
    have hp := Nat.two_pow_pos p
    rw [zero_roundShift] at hround
    omega
  · exact hn

/-- The exponent moves with the exact result. -/
theorem scale (h : Normalised p g s n t) (i : Nat) : Normalised p g s (n * 2 ^ i) (t + i) where
  ge := h.ge
  lt := h.lt
  order := by
    rw [log2_mul_two_pow h.pos, h.order, Nat.add_assoc]
  round := fun k hk => by
    rw [h.round k hk, Nat.add_right_comm, roundShift_mul_two_pow]

/-- A result whose low bits are collected. -/
theorem collected {k : Nat} (hg : 2 ≤ g) (hge : 2 ^ (p + g) ≤ stickyShift n k)
    (hlt : stickyShift n k < 2 ^ (p + g + 1)) : Normalised p g (stickyShift n k) n k where
  ge := hge
  lt := hlt
  order := by
    have hone : stickyShift n k / 2 ^ (p + g) = 1 := by
      rw [Nat.pow_succ] at hlt
      exact Nat.div_eq_of_lt_le (by omega) (by omega)
    rw [stickyShift_div_two_pow n k (by omega), Nat.div_div_eq_div_mul, ← Nat.pow_add,
      Nat.add_comm] at hone
    exact log2_eq_of_div hone
  round := fun i hi => roundShift_stickyShift n k (by omega)

/-- A result whose low bits are collected one place too far, and that is
shifted back. -/
theorem collected_double {k : Nat} (hg : 3 ≤ g) (hge : 2 ^ (p + g) ≤ stickyShift n (k + 1) * 2)
    (hlt : stickyShift n (k + 1) * 2 < 2 ^ (p + g + 1)) :
    Normalised p g (stickyShift n (k + 1) * 2) n k := by
  obtain ⟨i, rfl⟩ : ∃ i, g = i + 1 := ⟨g - 1, by omega⟩
  rw [← Nat.add_assoc, Nat.pow_succ] at hge hlt
  have hshort := collected (p := p) (g := i) (n := n) (k := k + 1) (by omega) (by omega) (by omega)
  refine ⟨by rw [← Nat.add_assoc, Nat.pow_succ]; omega,
    by rw [← Nat.add_assoc, Nat.pow_succ]; omega, by rw [hshort.order]; omega, fun j hj => ?_⟩
  obtain ⟨l, rfl⟩ : ∃ l, j = l + 1 := ⟨j - 1, by omega⟩
  have hstep := roundShift_mul_two_pow (stickyShift n (k + 1)) l 1
  rw [Nat.pow_one] at hstep
  rw [hstep, roundShift_stickyShift _ _ (by omega)]
  congr 1
  omega

end Normalised

/-! ## Aligned sums and differences -/

section Aligned

variable {p ma sa ta mb sb tb : Nat}

/-- The exact sum, over the exponent of the smaller operand. -/
theorem aligned_value_add (ha : Unpacked p ma sa ta) (hb : Unpacked p mb sb tb) (hle : tb ≤ ta) :
    (magnitude p ma + magnitude p mb) * 2 ^ (p + 3) =
      (8 * sa * 2 ^ (ta - tb) + 8 * sb) * 2 ^ tb := by
  have hpow : 2 ^ ta = 2 ^ (ta - tb) * 2 ^ tb := by
    rw [← Nat.pow_add, Nat.sub_add_cancel hle]
  calc (magnitude p ma + magnitude p mb) * 2 ^ (p + 3)
      = 8 * (magnitude p ma * 2 ^ p) + 8 * (magnitude p mb * 2 ^ p) := by ring
    _ = (8 * sa * 2 ^ (ta - tb) + 8 * sb) * 2 ^ tb := by
        rw [ha.value, hb.value, hpow]
        ring

/-- The exact difference, over the exponent of the smaller operand. -/
theorem aligned_value_sub (ha : Unpacked p ma sa ta) (hb : Unpacked p mb sb tb) (hle : tb ≤ ta) :
    (magnitude p ma - magnitude p mb) * 2 ^ (p + 3) =
      (8 * sa * 2 ^ (ta - tb) - 8 * sb) * 2 ^ tb := by
  have hpow : 2 ^ ta = 2 ^ (ta - tb) * 2 ^ tb := by
    rw [← Nat.pow_add, Nat.sub_add_cancel hle]
  calc (magnitude p ma - magnitude p mb) * 2 ^ (p + 3)
      = 8 * (magnitude p ma * 2 ^ p) - 8 * (magnitude p mb * 2 ^ p) := by
        rw [Nat.pow_add, ← Nat.mul_assoc, Nat.sub_mul, Nat.sub_mul]
        omega
    _ = (8 * sa * 2 ^ (ta - tb) - 8 * sb) * 2 ^ tb := by
        rw [ha.value, hb.value, hpow, Nat.sub_mul]
        ring_nf

/-- The sum of two significands with three guard bits, the second shifted by
`k` with a sticky bit. -/
def alignedSum (sa sb k : Nat) : Nat := 8 * sa + stickyShift (8 * sb) k

/-- The difference of two significands with three guard bits, the second
shifted by `k` with a sticky bit. -/
def alignedDiff (sa sb k : Nat) : Nat := 8 * sa - stickyShift (8 * sb) k

theorem alignedSum_eq (sa sb k : Nat) :
    alignedSum sa sb k = stickyShift (8 * sa * 2 ^ k + 8 * sb) k :=
  (stickyShift_add (8 * sa) (8 * sb) k (by omega)).symm

theorem alignedSum_lt (ha : Unpacked p ma sa ta) (hb : Unpacked p mb sb tb) :
    alignedSum sa sb (ta - tb) < 2 ^ (p + 5) := by
  have halt := ha.lt
  have hblt := hb.lt
  have hp4 : 2 ^ (p + 4) = 8 * 2 ^ (p + 1) := by ring
  have hp5 : 2 ^ (p + 5) = 2 * 2 ^ (p + 4) := by ring
  have hsmall : stickyShift (8 * sb) (ta - tb) < 2 ^ (p + 4) := by
    apply stickyShift_lt (by omega)
    exact Nat.lt_of_lt_of_le (by omega)
      (Nat.pow_le_pow_right (by decide) (Nat.le_add_left (p + 4) _))
  unfold alignedSum
  omega

/-- The sum without a carry. -/
theorem alignedSum_normalised (ha : Unpacked p ma sa ta) (hb : Unpacked p mb sb tb)
    (hle : tb ≤ ta) (hlt : alignedSum sa sb (ta - tb) < 2 ^ (p + 4)) :
    Normalised p 3 (alignedSum sa sb (ta - tb))
      ((magnitude p ma + magnitude p mb) * 2 ^ (p + 3)) ta := by
  have hge : 2 ^ (p + 3) ≤ alignedSum sa sb (ta - tb) := by
    have := ha.ge
    rw [Nat.pow_add]
    unfold alignedSum
    omega
  rw [alignedSum_eq] at hlt hge ⊢
  have h := (Normalised.collected (by decide) hge hlt).scale tb
  rwa [Nat.sub_add_cancel hle, ← aligned_value_add ha hb hle] at h

/-- The sum with a carry, shifted down by one more place. -/
theorem alignedSum_carry (ha : Unpacked p ma sa ta) (hb : Unpacked p mb sb tb)
    (hle : tb ≤ ta) (hge : 2 ^ (p + 4) ≤ alignedSum sa sb (ta - tb)) :
    Normalised p 3 (stickyShift (alignedSum sa sb (ta - tb)) 1)
      ((magnitude p ma + magnitude p mb) * 2 ^ (p + 3)) (ta + 1) := by
  have hp4 : 2 ^ (p + 4) = 2 * 2 ^ (p + 3) := by ring
  have hlow := le_stickyShift (alignedSum sa sb (ta - tb)) 1
  have hhigh : stickyShift (alignedSum sa sb (ta - tb)) 1 < 2 ^ (p + 4) := by
    apply stickyShift_lt (by omega)
    rw [show 1 + (p + 4) = p + 5 by omega]
    exact alignedSum_lt ha hb
  have hlead : 2 ^ (p + 3) ≤ stickyShift (alignedSum sa sb (ta - tb)) 1 := by omega
  rw [alignedSum_eq, stickyShift_stickyShift] at hlead hhigh ⊢
  have h := (Normalised.collected (by decide) hlead hhigh).scale tb
  rwa [show ta - tb + 1 + tb = ta + 1 by omega, ← aligned_value_add ha hb hle] at h

/-- The shifted operand is not above the other one. -/
theorem aligned_le (ha : Unpacked p ma sa ta) (hb : Unpacked p mb sb tb) (hle : mb ≤ ma) :
    8 * sb ≤ 8 * sa * 2 ^ (ta - tb) := by
  obtain ⟨hexp, hvalue⟩ := ha.exponent_le hb hle
  have hpow : 2 ^ ta = 2 ^ (ta - tb) * 2 ^ tb := by
    rw [← Nat.pow_add, Nat.sub_add_cancel hexp]
  rw [hpow, ← Nat.mul_assoc] at hvalue
  have := Nat.le_of_mul_le_mul_right hvalue (Nat.two_pow_pos tb)
  rw [Nat.mul_assoc]
  omega

theorem alignedDiff_eq (ha : Unpacked p ma sa ta) (hb : Unpacked p mb sb tb) (hle : mb ≤ ma) :
    alignedDiff sa sb (ta - tb) = stickyShift (8 * sa * 2 ^ (ta - tb) - 8 * sb) (ta - tb) :=
  (stickyShift_sub (8 * sa) (8 * sb) (ta - tb) (by omega) (aligned_le ha hb hle)).symm

/-- The difference vanishes only when the operands are equal. -/
theorem alignedDiff_eq_zero (ha : Unpacked p ma sa ta) (hb : Unpacked p mb sb tb)
    (hle : mb ≤ ma) (h : alignedDiff sa sb (ta - tb) = 0) : magnitude p ma = magnitude p mb := by
  rw [alignedDiff_eq ha hb hle] at h
  have hvalue := aligned_value_sub ha hb (ha.exponent_le hb hle).1
  rw [eq_zero_of_stickyShift_eq_zero h, Nat.zero_mul, Nat.mul_eq_zero] at hvalue
  have hmono := (magnitude_strictMono p).monotone hle
  have hpos := Nat.two_pow_pos (p + 3)
  omega

/-- The difference when the leading bit stays in place. -/
theorem alignedDiff_normalised (ha : Unpacked p ma sa ta) (hb : Unpacked p mb sb tb)
    (hle : mb ≤ ma) (hge : 2 ^ (p + 3) ≤ alignedDiff sa sb (ta - tb)) :
    Normalised p 3 (alignedDiff sa sb (ta - tb))
      ((magnitude p ma - magnitude p mb) * 2 ^ (p + 3)) ta := by
  have hlt : alignedDiff sa sb (ta - tb) < 2 ^ (p + 3 + 1) := by
    have := ha.lt
    have hp4 : 2 ^ (p + 3 + 1) = 8 * 2 ^ (p + 1) := by ring
    unfold alignedDiff
    omega
  obtain ⟨hexp, -⟩ := ha.exponent_le hb hle
  rw [alignedDiff_eq ha hb hle] at hlt hge ⊢
  have h := (Normalised.collected (by decide) hge hlt).scale tb
  rwa [Nat.sub_add_cancel hexp, ← aligned_value_sub ha hb hexp] at h

/-- A short shift drops guard bits only, so nothing is collected. -/
theorem alignedDiff_exact (ha : Unpacked p ma sa ta) (hb : Unpacked p mb sb tb)
    (hle : mb ≤ ma) (hk : ta - tb ≤ 3) :
    (magnitude p ma - magnitude p mb) * 2 ^ (p + 3) = alignedDiff sa sb (ta - tb) * 2 ^ ta := by
  obtain ⟨hexp, -⟩ := ha.exponent_le hb hle
  have hdvd : 2 ^ (ta - tb) ∣ 8 * sa * 2 ^ (ta - tb) - 8 * sb :=
    Nat.dvd_sub (Nat.dvd_mul_left _ _)
      (Nat.dvd_trans (pow_dvd_pow 2 hk) (Nat.dvd_mul_right (2 ^ 3) sb))
  have hpow : 2 ^ ta = 2 ^ (ta - tb) * 2 ^ tb := by
    rw [← Nat.pow_add, Nat.sub_add_cancel hexp]
  rw [aligned_value_sub ha hb hexp, alignedDiff_eq ha hb hle, stickyShift,
    if_pos (Nat.mod_eq_zero_of_dvd hdvd), hpow, ← Nat.mul_assoc, Nat.div_mul_cancel hdvd]

/-- After a long shift at most one leading bit cancels. -/
theorem le_alignedDiff (ha : Unpacked p ma sa ta) (hb : Unpacked p mb sb tb)
    (hk : 3 < ta - tb) : 2 ^ (p + 2) ≤ alignedDiff sa sb (ta - tb) := by
  have hage := ha.ge
  have hblt := hb.lt
  have hp := Nat.two_pow_pos p
  have hp2 : 2 ^ (p + 2) = 4 * 2 ^ p := by ring
  have hle := stickyShift_le (8 * sb) (ta - tb)
  have hdiv : 8 * sb / 2 ^ (ta - tb) ≤ 8 * sb / 2 ^ 4 :=
    Nat.div_le_div_left (Nat.pow_le_pow_right (by decide) hk) (by decide)
  rw [Nat.pow_succ] at hblt
  unfold alignedDiff
  omega

/-- The difference when leading bits cancel.  The shift that restores the
leading bit is by one place, or no bit was collected. -/
theorem alignedDiff_cancel (ha : Unpacked p ma sa ta) (hb : Unpacked p mb sb tb) (hle : mb ≤ ma)
    (hpos : 0 < alignedDiff sa sb (ta - tb)) (hlt : alignedDiff sa sb (ta - tb) < 2 ^ (p + 3)) :
    ∃ t, t + (p + 3 - (alignedDiff sa sb (ta - tb)).log2) = ta ∧
      Normalised p 3 (alignedDiff sa sb (ta - tb) *
          2 ^ (p + 3 - (alignedDiff sa sb (ta - tb)).log2))
        ((magnitude p ma - magnitude p mb) * 2 ^ (p + 3)) t := by
  obtain ⟨hexp, -⟩ := ha.exponent_le hb hle
  rcases Nat.lt_or_ge 3 (ta - tb) with hk | hk
  · have hlog : (alignedDiff sa sb (ta - tb)).log2 = p + 2 :=
      (Nat.log2_eq_iff (Nat.ne_of_gt hpos)).2 ⟨le_alignedDiff ha hb hk, hlt⟩
    refine ⟨ta - 1, by omega, ?_⟩
    have hge := le_alignedDiff ha hb hk
    rw [hlog, show p + 3 - (p + 2) = 1 by omega, Nat.pow_one]
    rw [alignedDiff_eq ha hb hle] at hlt hge ⊢
    obtain ⟨i, hi⟩ : ∃ i, ta - tb = i + 1 := ⟨ta - tb - 1, by omega⟩
    rw [aligned_value_sub ha hb hexp, show ta - 1 = i + tb by omega]
    rw [hi] at hlt hge ⊢
    refine (Normalised.collected_double (by decide) ?_ ?_).scale tb
    · rw [show p + 3 = p + 2 + 1 by omega, Nat.pow_succ]
      omega
    · rw [Nat.pow_succ 2 (p + 3)]
      omega
  · have hvalue := alignedDiff_exact ha hb hle hk
    generalize alignedDiff sa sb (ta - tb) = d at *
    have hnext := Nat.lt_log2_self (n := d)
    have hlog : d.log2 < p + 3 := (Nat.log2_lt (Nat.ne_of_gt hpos)).2 hlt
    -- the difference is a positive multiple of the least value
    have hshift : p + 3 - d.log2 ≤ ta := by
      have hunit : 2 ^ (p + 3) ≤ d * 2 ^ ta := by
        rw [← hvalue]
        refine Nat.le_mul_of_pos_left _ (Nat.pos_of_ne_zero fun h0 => ?_)
        rw [h0, Nat.zero_mul] at hvalue
        exact Nat.ne_of_gt (Nat.mul_pos hpos (Nat.two_pow_pos ta)) hvalue.symm
      have hpow : 2 ^ (p + 3) < 2 ^ (d.log2 + 1 + ta) := by
        rw [Nat.pow_add 2 (d.log2 + 1)]
        exact Nat.lt_of_le_of_lt hunit (Nat.mul_lt_mul_of_pos_right hnext (Nat.two_pow_pos ta))
      have := (Nat.pow_lt_pow_iff_right (by decide)).1 hpow
      omega
    refine ⟨ta - (p + 3 - d.log2), Nat.sub_add_cancel hshift, ?_⟩
    have hscaled : d * 2 ^ ta = d * 2 ^ (p + 3 - d.log2) * 2 ^ (ta - (p + 3 - d.log2)) := by
      rw [Nat.mul_assoc, ← Nat.pow_add, Nat.add_sub_of_le hshift]
    obtain ⟨hge, hlt'⟩ := lead_bit hpos (Nat.le_of_lt hlog)
    have h := (Normalised.exact hge hlt').scale (ta - (p + 3 - d.log2))
    rwa [Nat.zero_add, ← hscaled, ← hvalue] at h

end Aligned

end Cheesecloth.CodeLib
