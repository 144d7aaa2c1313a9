import Mathlib.Tactic.Ring
import Cheesecloth.CodeLib.Datum
import Cheesecloth.CodeLib.Significand

/-!
# Patterns of one format in another

A wide format has `d` more significand bits than a narrow one, and its exponents
have a larger bias, by `B`.  Its unit is then smaller by `d + B` powers of two.

* `magnitude_widen`, `magnitude_widen_subnormal`: the wide pattern of a narrow
  value.  It is exact.
* `roundPattern_narrow`, `roundPattern_narrow_subnormal`,
  `roundPattern_narrow_zero`: the narrow pattern nearest to a wide value, by the
  place of the value in the narrow format.
* `Format.Widens` is the relation of the formats, with what it says of values
  and of roundings.
-/

namespace Cheesecloth.CodeLib

/-! ## Widening -/

/-- A normal pattern is shifted up and rebiased. -/
theorem magnitude_widen {p m : Nat} (d B : Nat) (h : 2 ^ p ≤ m) :
    magnitude (p + d) (m * 2 ^ d + B * 2 ^ (p + d)) = magnitude p m * 2 ^ (d + B) := by
  obtain ⟨k, s, rfl, hk, hs⟩ := exists_parts p m
  have hge : 2 ^ p ≤ s := by
    rcases hk with rfl | hge
    · omega
    · exact hge
  have hge' : 2 ^ (p + d) ≤ s * 2 ^ d := by
    rw [Nat.pow_add]
    exact Nat.mul_le_mul_right _ hge
  have hle' : s * 2 ^ d ≤ 2 ^ (p + d + 1) := by
    rw [Nat.add_right_comm, Nat.pow_add]
    exact Nat.mul_le_mul_right _ (Nat.le_of_lt hs)
  have hparts : (k * 2 ^ p + s) * 2 ^ d + B * 2 ^ (p + d) = (k + B) * 2 ^ (p + d) + s * 2 ^ d := by
    ring
  rw [hparts, magnitude_parts (Or.inr hge') hle', magnitude_parts (Or.inr hge) (Nat.le_of_lt hs)]
  ring

/-- A subnormal pattern gets its leading bit in place. -/
theorem magnitude_widen_subnormal {p d B m k : Nat} (h0 : 0 < m) (h : m < 2 ^ p)
    (hk : k + p = B + m.log2) :
    magnitude (p + d) (k * 2 ^ (p + d) + m * 2 ^ (d + (p - m.log2))) =
      magnitude p m * 2 ^ (d + B) := by
  have hlog : m.log2 < p := (Nat.log2_lt (Nat.ne_of_gt h0)).2 h
  obtain ⟨hge, hlt⟩ := lead_bit h0 (Nat.le_of_lt hlog)
  have hsig : m * 2 ^ (d + (p - m.log2)) = m * 2 ^ (p - m.log2) * 2 ^ d := by ring
  have hge' : 2 ^ (p + d) ≤ m * 2 ^ (d + (p - m.log2)) := by
    rw [hsig, Nat.pow_add]
    exact Nat.mul_le_mul_right _ hge
  have hle' : m * 2 ^ (d + (p - m.log2)) ≤ 2 ^ (p + d + 1) := by
    rw [hsig, Nat.add_right_comm, Nat.pow_add]
    exact Nat.mul_le_mul_right _ (Nat.le_of_lt hlt)
  rw [magnitude_parts (Or.inr hge') hle', magnitude, if_pos (Nat.div_eq_of_lt h), Nat.mul_assoc,
    ← Nat.pow_add]
  congr 2
  omega

/-! ## Narrowing -/

/-- A value above the narrow subnormals is rounded in the pattern itself. -/
theorem roundPattern_narrow {q d B m : Nat} (hq : 0 < q) (h : (B + 1) * 2 ^ (q + d) ≤ m) :
    roundPattern q (d + B) (magnitude (q + d) m) + B * 2 ^ q = roundShift m d := by
  have hpow := Nat.two_pow_pos (q + d)
  have hpos : 0 < m / 2 ^ (q + d) :=
    Nat.div_pos (Nat.le_trans (Nat.le_mul_of_pos_left _ (Nat.succ_pos B)) h) hpow
  have hunpacked := Unpacked.normal hpos
  obtain ⟨k, hk⟩ : ∃ k, m / 2 ^ (q + d) = k + 1 := ⟨_, (Nat.succ_pred_eq_of_pos hpos).symm⟩
  have hB : B ≤ k := by
    have := (Nat.le_div_iff_mul_le hpow).2 h
    omega
  obtain ⟨i, rfl⟩ := Nat.exists_eq_add_of_le hB
  have hsplit := Nat.div_add_mod' m (2 ^ (q + d))
  rw [hk] at hunpacked hsplit
  generalize hs : 2 ^ (q + d) + m % 2 ^ (q + d) = s at hunpacked
  have hmag : magnitude (q + d) m = s * 2 ^ (B + i) := by
    apply Nat.eq_of_mul_eq_mul_right hpow
    rw [hunpacked.value, Nat.mul_assoc, ← Nat.pow_add]
    rfl
  have hnorm := (Normalised.exact hunpacked.ge hunpacked.lt).scale (B + i)
  rw [← hmag, Nat.zero_add] at hnorm
  have hshift : m = (B + i) * 2 ^ q * 2 ^ d + s := by
    rw [← hs, Nat.mul_assoc, ← Nat.pow_add]
    rw [Nat.add_mul _ 1, Nat.one_mul] at hsplit
    omega
  have heven : (B + i) * 2 ^ q % 2 = 0 := by
    obtain ⟨j, rfl⟩ := Nat.exists_eq_add_one.2 hq
    rw [Nat.pow_succ, ← Nat.mul_assoc, Nat.mul_mod_left]
  rw [hnorm.roundPattern_normal (by omega), hshift, roundShift_add_even_mul _ _ _ heven,
    show d + (B + i) - (d + B) = i by omega]
  ring

/-- A value among the narrow subnormals is rounded in its significand. -/
theorem roundPattern_narrow_subnormal {q d B m : Nat} (hpos : 0 < m / 2 ^ (q + d))
    (h : m / 2 ^ (q + d) ≤ B) :
    roundPattern q (d + B) (magnitude (q + d) m) =
      roundShift (2 ^ (q + d) + m % 2 ^ (q + d)) (B + 1 - m / 2 ^ (q + d) + d) := by
  have hpow := Nat.two_pow_pos (q + d)
  have hunpacked := Unpacked.normal hpos
  obtain ⟨k, hk⟩ : ∃ k, m / 2 ^ (q + d) = k + 1 := ⟨_, (Nat.succ_pred_eq_of_pos hpos).symm⟩
  rw [hk] at hunpacked h ⊢
  generalize 2 ^ (q + d) + m % 2 ^ (q + d) = s at *
  have hmag : magnitude (q + d) m = s * 2 ^ k := by
    apply Nat.eq_of_mul_eq_mul_right hpow
    rw [hunpacked.value, Nat.mul_assoc, ← Nat.pow_add]
    rfl
  have hnorm := (Normalised.exact hunpacked.ge hunpacked.lt).scale k
  rw [← hmag, Nat.zero_add] at hnorm
  rw [hnorm.roundPattern_subnormal (by omega)]
  congr 1
  omega

/-- A value below half of the least narrow one rounds to zero. -/
theorem roundPattern_narrow_zero {p q d B m : Nat} (hd : 0 < d) (h : magnitude p m < 2 ^ B) :
    roundPattern q (d + B) (magnitude p m) = 0 := by
  generalize magnitude p m = n at *
  have hdropped : dropped q (d + B) n = 0 := by
    unfold dropped
    rcases Nat.eq_zero_or_pos n with rfl | hn
    · simp
    · have := (Nat.log2_lt (Nat.ne_of_gt hn)).2 h
      omega
  have hsmall : 2 ^ (B + 1) ≤ 2 ^ (d + B) := Nat.pow_le_pow_right (by decide) (by omega)
  rw [Nat.pow_succ] at hsmall
  rw [roundPattern, hdropped, Nat.zero_mul, Nat.zero_add, Nat.zero_add,
    roundShift_eq_zero (by omega)]

namespace Format

/-- The format `g` has `d` more significand bits than `f`, and a bias that is
larger by `B`. -/
structure Widens (f g : Format) (d B : Nat) : Prop where
  significandBits : g.significandBits = f.significandBits + d
  bias : g.bias = f.bias + B

variable {f g : Format} {d B b c : Nat}

theorem Widens.scale (h : f.Widens g d B) : g.scale = f.scale + (d + B) := by
  have := f.significandBits_pos
  unfold Format.scale
  rw [h.significandBits, h.bias]
  omega

/-- Words of one sign whose magnitudes differ by the change of units. -/
theorem Widens.value_eq (h : f.Widens g d B) (hsign : g.signBit ≤ c ↔ f.signBit ≤ b)
    (hmag : magnitude g.significandBits (c % g.signBit) =
      magnitude f.significandBits (b % f.signBit) * 2 ^ (d + B)) : g.value c = f.value b := by
  have hunits : g.units c = f.units b * 2 ^ (d + B) := by
    unfold units
    rw [hmag]
    push_cast
    by_cases hb : f.signBit ≤ b
    · rw [if_neg (Nat.not_lt.2 hb), if_neg (Nat.not_lt.2 (hsign.2 hb)), neg_mul]
    · rw [if_pos (Nat.lt_of_not_le hb), if_pos (Nat.lt_of_not_le (mt hsign.1 hb))]
  unfold value
  rw [hunits, h.scale, pow_add _ f.scale, Int.cast_mul, Int.cast_pow, Int.cast_ofNat]
  exact mul_div_mul_right _ _ (by positivity)

/-- A wide value is rounded to the narrow pattern nearest to it. -/
theorem Widens.roundsTo (h : f.Widens g d B) (c : Nat) (hnonzero : g.units c ≠ 0) :
    f.RoundsTo (g.value c) (f.pack (decide (g.signBit ≤ c))
      (roundPattern f.significandBits (d + B)
        (magnitude g.significandBits (c % g.signBit)))) := by
  have hrounds := f.pack_roundsTo (g.units c) (d + B)
  have hsign : decide (g.units c < 0) = decide (g.signBit ≤ c) := by
    rw [decide_eq_decide]
    unfold units at *
    split_ifs at * <;> omega
  rw [← h.scale, hsign, natAbs_units] at hrounds
  exact hrounds

end Format

end Cheesecloth.CodeLib
