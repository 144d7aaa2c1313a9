import Mathlib.Algebra.Order.Field.Basic
import Mathlib.Algebra.Order.Ring.Abs
import Mathlib.Data.Rat.Cast.Order
import Mathlib.Tactic.FieldSimp
import Mathlib.Tactic.Positivity
import Cheesecloth.CodeLib.BinaryFormat

/-!
# Binary interchange formats

A format of IEEE 754: a sign bit, an exponent field and a significand field in
one word.  Words are natural numbers here, whatever type an implementation
keeps them in.

* `Format.value` is the rational that a finite word stands for.
* `Format.RoundsTo x b` is the standard's round to nearest, ties to even: an
  overflow to infinity, a nearest finite word otherwise, the even one of two,
  and `+0` for `0`.  It determines the word (`RoundsTo.unique`).
* `Format.pack` builds a word from a sign and a pattern, with the infinity as a
  cap.  `pack_roundsTo_div` reduces the standard's rounding to the nearest
  pattern, and `pack_roundsTo` to `roundPattern`, which is what the
  implementations compute where the result has a power of two below it.
* `Format.IsDouble b c` is an exact product by two.  It determines the word
  too, and one step of the exponent is one (`isDouble_add`).
-/

namespace Cheesecloth.CodeLib

/-- A binary interchange format, by the widths of its fields. -/
structure Format where
  significandBits : Nat
  exponentBits : Nat
  significandBits_pos : 0 < significandBits
  exponentBits_gt_one : 1 < exponentBits

namespace Format

variable (f : Format)

/-! ## Words -/

/-- The word with only its sign bit set. -/
def signBit : Nat := 2 ^ (f.significandBits + f.exponentBits)

/-- The pattern of the infinities. -/
def infPattern : Nat := (2 ^ f.exponentBits - 1) * 2 ^ f.significandBits

/-- The exponent bias. -/
def bias : Nat := 2 ^ (f.exponentBits - 1) - 1

/-- The least positive value is `2 ^ -scale`. -/
def scale : Nat := f.bias + f.significandBits - 1

/-- A word of the format that is neither an infinity nor a NaN. -/
def IsFinite (b : Nat) : Prop := b < 2 * f.signBit ∧ b % f.signBit < f.infPattern

/-- The value of a finite word, as a multiple of the least positive value. -/
def units (b : Nat) : Int :=
  if b < f.signBit then (magnitude f.significandBits (b % f.signBit) : Int)
  else -(magnitude f.significandBits (b % f.signBit) : Int)

/-- The value of a finite word. -/
def value (b : Nat) : ℚ := f.units b / 2 ^ f.scale

/-- The midpoint between the largest finite value and the one that would
follow it.  Values from there on overflow. -/
def overflowThreshold : ℚ :=
  ((magnitude f.significandBits (f.infPattern - 1) + magnitude f.significandBits f.infPattern : Nat)
    : ℚ) / (2 * 2 ^ f.scale)

/-- `b` is `x` rounded to nearest, ties to even. -/
structure RoundsTo (x : ℚ) (b : Nat) : Prop where
  lt : b < 2 * f.signBit
  sign : f.signBit ≤ b ↔ x < 0
  overflow : f.overflowThreshold ≤ |x| → b % f.signBit = f.infPattern
  finite : |x| < f.overflowThreshold → f.IsFinite b
  nearest : |x| < f.overflowThreshold → ∀ c, f.IsFinite c → |x - f.value b| ≤ |x - f.value c|
  even : |x| < f.overflowThreshold → ∀ c, f.IsFinite c → f.value c ≠ f.value b →
    |x - f.value b| = |x - f.value c| → b % 2 = 0

/-- The word of a sign and a pattern.  Patterns from the infinity on overflow
to it. -/
def pack (negative : Bool) (m : Nat) : Nat :=
  (if negative then f.signBit else 0) + min m f.infPattern

variable {f}

theorem infPattern_lt_signBit : f.infPattern < f.signBit := by
  have hp := Nat.two_pow_pos f.significandBits
  unfold infPattern signBit
  rw [Nat.add_comm, Nat.pow_add]
  exact Nat.mul_lt_mul_of_pos_right (Nat.sub_lt (Nat.two_pow_pos _) Nat.one_pos) hp

theorem infPattern_pos : 0 < f.infPattern := by
  have h1 : 2 ^ 1 < 2 ^ f.exponentBits :=
    Nat.pow_lt_pow_right (by decide) f.exponentBits_gt_one
  exact Nat.mul_pos (by omega) (Nat.two_pow_pos _)

theorem infPattern_even : f.infPattern % 2 = 0 := by
  obtain ⟨i, hi⟩ := Nat.exists_eq_add_one.2 f.significandBits_pos
  rw [infPattern, hi, Nat.pow_succ, ← Nat.mul_assoc, Nat.mul_mod_left]

theorem signBit_even : f.signBit % 2 = 0 := by
  obtain ⟨i, hi⟩ := Nat.exists_eq_add_one.2 f.significandBits_pos
  rw [signBit, hi, Nat.add_right_comm, Nat.pow_succ, Nat.mul_mod_left]

section Pack

variable (f) (negative : Bool) (m : Nat)

theorem pack_lt : f.pack negative m < 2 * f.signBit := by
  have h := infPattern_lt_signBit (f := f)
  unfold pack
  split_ifs <;> omega

theorem signBit_le_pack : f.signBit ≤ f.pack negative m ↔ negative = true := by
  have h := infPattern_lt_signBit (f := f)
  unfold pack
  cases negative <;> simp
  omega

theorem pack_mod_signBit : f.pack negative m % f.signBit = min m f.infPattern := by
  have h := infPattern_lt_signBit (f := f)
  unfold pack
  cases negative
  · simp only [Bool.false_eq_true, if_false, Nat.zero_add]
    exact Nat.mod_eq_of_lt (by omega)
  · simp only [if_true, Nat.add_mod_left]
    exact Nat.mod_eq_of_lt (by omega)

theorem pack_mod_two (hm : m < f.infPattern) : f.pack negative m % 2 = m % 2 := by
  have h := signBit_even (f := f)
  unfold pack
  split_ifs <;> omega

end Pack

/-! ## Distances in units -/

theorem natAbs_units (b : Nat) :
    (f.units b).natAbs = magnitude f.significandBits (b % f.signBit) := by
  unfold units
  split_ifs <;> simp

theorem units_mul (b d : Nat) :
    f.units b * d =
      if b < f.signBit then ((magnitude f.significandBits (b % f.signBit) * d : Nat) : Int)
      else -((magnitude f.significandBits (b % f.signBit) * d : Nat) : Int) := by
  unfold units
  split_ifs <;> push_cast <;> ring

/-- The distance from `X / d` to a word, in units of `1 / d` of the least
positive value.  It is the distance of the magnitudes when the signs agree. -/
theorem natAbs_sub_units_same {b : Nat} {X : Int} (d : Nat) (hs : f.signBit ≤ b ↔ X < 0) :
    (X - f.units b * d).natAbs =
      Nat.dist X.natAbs (magnitude f.significandBits (b % f.signBit) * d) := by
  rw [units_mul]
  unfold Nat.dist
  split_ifs <;> omega

/-- A word of the other sign lies beyond `0`. -/
theorem natAbs_sub_units_opposite {b : Nat} {X : Int} (d : Nat) (hs : ¬ (f.signBit ≤ b ↔ X < 0)) :
    (X - f.units b * d).natAbs =
      X.natAbs + magnitude f.significandBits (b % f.signBit) * d := by
  rw [units_mul]
  split_ifs <;> omega

/-- The rational distance, over the common denominator. -/
theorem abs_sub_value (X : Int) {d : Nat} (hd : 0 < d) (b : Nat) :
    |(X : ℚ) / (2 ^ f.scale * d) - f.value b| =
      ((X - f.units b * d).natAbs : ℚ) / (2 ^ f.scale * d) := by
  have hd' : (0 : ℚ) < d := Nat.cast_pos.2 hd
  have hpos : (0 : ℚ) < 2 ^ f.scale * d := by positivity
  have hsub : (X : ℚ) / (2 ^ f.scale * d) - f.value b =
      ((X - f.units b * d : Int) : ℚ) / (2 ^ f.scale * d) := by
    unfold value
    push_cast
    field_simp
  rw [hsub, abs_div, abs_of_pos hpos, Nat.cast_natAbs, Int.cast_abs]

/-! ## Rounding -/

/-- The word of a value is the word itself, except for `-0`. -/
theorem pack_units {b : Nat} (hb : f.IsFinite b) (hz : b ≠ f.signBit) :
    f.pack (decide (f.units b < 0)) (roundPattern f.significandBits 0 (f.units b).natAbs) = b := by
  obtain ⟨hlt, hfin⟩ := hb
  unfold pack units
  rcases Nat.lt_or_ge b f.signBit with h | h
  · rw [Nat.mod_eq_of_lt h] at hfin
    rw [if_pos h, Nat.mod_eq_of_lt h, Int.natAbs_natCast, roundPattern_magnitude,
      Nat.min_eq_left (Nat.le_of_lt hfin)]
    simp
  · have hmod : b % f.signBit = b - f.signBit := by
      rw [Nat.mod_eq_sub_mod h, Nat.mod_eq_of_lt (by omega)]
    have hpos := magnitude_pos (p := f.significandBits) (show 0 < b - f.signBit by omega)
    rw [hmod] at hfin
    rw [if_neg (Nat.not_lt.2 h), hmod, Int.natAbs_neg, Int.natAbs_natCast, roundPattern_magnitude,
      Nat.min_eq_left (Nat.le_of_lt hfin), decide_eq_true (by omega), if_pos rfl]
    omega

theorem magnitude_infPattern :
    magnitude f.significandBits f.infPattern = 2 ^ (f.significandBits + 2 * f.bias) := by
  have hpow : 2 ^ f.exponentBits = 2 * 2 ^ (f.exponentBits - 1) := by
    rw [← Nat.pow_succ', Nat.succ_eq_add_one,
      Nat.sub_add_cancel (Nat.le_of_lt f.exponentBits_gt_one)]
  have hhalf : 2 ^ 1 ≤ 2 ^ (f.exponentBits - 1) :=
    Nat.pow_le_pow_right (by decide) (by have := f.exponentBits_gt_one; omega)
  have hparts : f.infPattern = 2 * f.bias * 2 ^ f.significandBits + 2 ^ f.significandBits := by
    rw [infPattern, bias, ← Nat.succ_mul]
    congr 1
    omega
  rw [hparts, magnitude_parts (Or.inr (Nat.le_refl _))
    (Nat.pow_le_pow_right (by decide) (Nat.le_succ _)), ← Nat.pow_add]

/-- A value that the format holds is its own rounding. -/
theorem pack_exact {X : Int} {c k : Nat} (hX : X.natAbs = c * 2 ^ k)
    (hc : c < 2 ^ (f.significandBits + 1))
    (hlt : X.natAbs < 2 ^ (f.significandBits + 2 * f.bias)) :
    f.IsFinite (f.pack (decide (X < 0)) (roundPattern f.significandBits 0 X.natAbs)) ∧
      f.units (f.pack (decide (X < 0)) (roundPattern f.significandBits 0 X.natAbs)) = X := by
  obtain ⟨m, hm⟩ := exists_magnitude_eq k hc
  rw [← hX] at hm
  have hround : roundPattern f.significandBits 0 X.natAbs = m := by
    rw [← hm, roundPattern_magnitude]
  have hfin : m < f.infPattern := by
    rw [← magnitude_infPattern, ← hm] at hlt
    exact (magnitude_strictMono _).lt_iff_lt.1 hlt
  have hmod := pack_mod_signBit f (decide (X < 0)) m
  have hsign := signBit_le_pack f (decide (X < 0)) m
  rw [decide_eq_true_iff] at hsign
  rw [Nat.min_eq_left (Nat.le_of_lt hfin)] at hmod
  rw [hround]
  refine ⟨⟨pack_lt _ _ _, by rwa [hmod]⟩, ?_⟩
  unfold units
  rw [hmod, hm]
  split_ifs <;> omega

/-- The nearest pattern overflows from the threshold on.  At the threshold
itself the tie is broken upwards, since the infinity is an even pattern. -/
theorem infPattern_le_iff {n d m : Nat} (hd : 0 < d) (h : IsNearest f.significandBits n d m) :
    f.infPattern ≤ m ↔
      (magnitude f.significandBits (f.infPattern - 1) + magnitude f.significandBits f.infPattern)
        * d ≤ 2 * n := by
  have hinf := infPattern_pos (f := f)
  have heven := infPattern_even (f := f)
  have hmono := (magnitude_strictMono f.significandBits).monotone
  have hpred := h.dist_le (f.infPattern - 1)
  have hself := h.dist_le f.infPattern
  have htie := h.even f.infPattern
  have hstep : magnitude f.significandBits (f.infPattern - 1) * d <
      magnitude f.significandBits f.infPattern * d :=
    Nat.mul_lt_mul_of_pos_right (magnitude_strictMono _ (by omega)) hd
  unfold Nat.dist at hpred hself htie
  rw [Nat.add_mul]
  constructor
  · intro hge
    have hle := Nat.mul_le_mul_right d (hmono hge)
    omega
  · intro hn
    by_contra hlt
    have hle := Nat.mul_le_mul_right d (hmono (show m ≤ f.infPattern - 1 by omega))
    have hparity := htie (by omega)
    have hlast : m = f.infPattern - 1 := by
      by_contra hne
      have hlt' : magnitude f.significandBits m * d <
          magnitude f.significandBits (f.infPattern - 1) * d :=
        Nat.mul_lt_mul_of_pos_right (magnitude_strictMono _ (by omega)) hd
      omega
    omega

/-- Overflow in terms of the rational. -/
theorem overflowThreshold_le_iff {X : Int} {d m : Nat} (hd : 0 < d)
    (h : IsNearest f.significandBits X.natAbs d m) :
    f.overflowThreshold ≤ |(X : ℚ) / (2 ^ f.scale * d)| ↔ f.infPattern ≤ m := by
  have hd' : (0 : ℚ) < d := Nat.cast_pos.2 hd
  have hpos : (0 : ℚ) < 2 ^ f.scale * d := by positivity
  rw [infPattern_le_iff hd h, overflowThreshold, abs_div, abs_of_pos hpos,
    div_le_div_iff₀ (by positivity) hpos, ← Int.cast_abs, ← Nat.cast_natAbs]
  generalize magnitude f.significandBits (f.infPattern - 1) +
    magnitude f.significandBits f.infPattern = M
  have hscale : (0 : ℚ) < 2 ^ f.scale := by positivity
  rw [show (M : ℚ) * (2 ^ f.scale * d) = M * d * 2 ^ f.scale by ring,
    show (X.natAbs : ℚ) * (2 * 2 ^ f.scale) = 2 * X.natAbs * 2 ^ f.scale by ring,
    mul_le_mul_iff_left₀ hscale]
  exact_mod_cast Iff.rfl

/-- The word of the nearest pattern is the rounded quotient. -/
theorem pack_roundsTo_div {X : Int} {d m : Nat} (hd : 0 < d)
    (hm : IsNearest f.significandBits X.natAbs d m) :
    f.RoundsTo ((X : ℚ) / (2 ^ f.scale * d)) (f.pack (decide (X < 0)) m) := by
  have hd' : (0 : ℚ) < d := Nat.cast_pos.2 hd
  have hpos : (0 : ℚ) < 2 ^ f.scale * d := by positivity
  have hsign : f.signBit ≤ f.pack (decide (X < 0)) m ↔ X < 0 := by
    rw [signBit_le_pack, decide_eq_true_iff]
  have hfin : |(X : ℚ) / (2 ^ f.scale * d)| < f.overflowThreshold → m < f.infPattern := by
    intro h
    rwa [← not_le, overflowThreshold_le_iff hd hm, not_le] at h
  have hdist : m < f.infPattern →
      (X - f.units (f.pack (decide (X < 0)) m) * d).natAbs =
        Nat.dist X.natAbs (magnitude f.significandBits m * d) := by
    intro h
    rw [natAbs_sub_units_same d hsign, pack_mod_signBit, Nat.min_eq_left (Nat.le_of_lt h)]
  refine ⟨pack_lt _ _ _, ?_, ?_, ?_, ?_, ?_⟩
  · rw [hsign, div_lt_iff₀ hpos, zero_mul, Int.cast_lt_zero]
  · intro h
    rw [pack_mod_signBit, Nat.min_eq_right ((overflowThreshold_le_iff hd hm).1 h)]
  · intro h
    refine ⟨pack_lt _ _ _, ?_⟩
    rw [pack_mod_signBit]
    have := hfin h
    omega
  · intro h c _
    rw [abs_sub_value X hd, abs_sub_value X hd, div_le_div_iff_of_pos_right hpos, Nat.cast_le,
      hdist (hfin h)]
    by_cases hc : f.signBit ≤ c ↔ X < 0
    · rw [natAbs_sub_units_same d hc]
      exact hm.dist_le _
    · rw [natAbs_sub_units_opposite d hc]
      have hzero := hm.dist_le 0
      rw [magnitude_zero, Nat.zero_mul, Nat.dist_zero_right] at hzero
      omega
  · intro h c hcfin hne htie
    rw [abs_sub_value X hd, abs_sub_value X hd, div_left_inj' hpos.ne', Nat.cast_inj,
      hdist (hfin h)] at htie
    rw [pack_mod_two _ _ _ (hfin h)]
    by_cases hc : f.signBit ≤ c ↔ X < 0
    · rw [natAbs_sub_units_same d hc] at htie
      refine hm.even _ ?_ htie
      intro heq
      apply hne
      unfold value units
      rw [heq, pack_mod_signBit, Nat.min_eq_left (Nat.le_of_lt (hfin h))]
      have : c < f.signBit ↔ f.pack (decide (X < 0)) m < f.signBit := by omega
      simp only [this]
    · rw [natAbs_sub_units_opposite d hc] at htie
      have hzero := hm.dist_le 0
      have heven := hm.even 0
      rw [magnitude_zero, Nat.zero_mul, Nat.dist_zero_right] at hzero heven
      by_cases hr : m = 0
      · rw [hr]
      · exact heven (Ne.symm hr) (by omega)

/-- The case of a denominator that is a power of two, where `roundPattern`
computes the nearest pattern. -/
theorem pack_roundsTo (f : Format) (X : Int) (j : Nat) :
    f.RoundsTo ((X : ℚ) / 2 ^ (f.scale + j))
      (f.pack (decide (X < 0)) (roundPattern f.significandBits j X.natAbs)) := by
  have h := pack_roundsTo_div (f := f) (Nat.two_pow_pos j)
    (roundPattern_isNearest f.significandBits j X.natAbs f.significandBits_pos)
  rwa [Nat.cast_pow, Nat.cast_ofNat, ← pow_add] at h

/-- A value between two equally distant ones is nearer. -/
theorem abs_sub_lt_of_between {x b c d : ℚ} (htie : |x - b| = |x - c|)
    (hbetween : c < d ∧ d < b ∨ b < d ∧ d < c) : |x - d| < |x - c| := by
  have hmid : x - b = -(x - c) := by
    rcases abs_eq_abs.1 htie with h | h
    · rcases hbetween with ⟨h1, h2⟩ | ⟨h1, h2⟩ <;> linarith
    · exact h
  rcases hbetween with ⟨h1, h2⟩ | ⟨h1, h2⟩
  · rw [abs_of_pos (show 0 < x - c by linarith), abs_lt]
    constructor <;> linarith
  · rw [abs_of_neg (show x - c < 0 by linarith), abs_lt]
    constructor <;> linarith

/-- Words of one sign are ordered by their patterns, upwards or downwards. -/
theorem value_strict {b c : Nat} (hsign : f.signBit ≤ b ↔ f.signBit ≤ c)
    (hlt : b % f.signBit < c % f.signBit) :
    (b < f.signBit → f.value b < f.value c) ∧ (f.signBit ≤ b → f.value c < f.value b) := by
  have hmag := magnitude_strictMono f.significandBits hlt
  have hpos : (0 : ℚ) < 2 ^ f.scale := by positivity
  constructor
  · intro h
    rw [value, value, div_lt_div_iff_of_pos_right hpos, Int.cast_lt, units, units, if_pos h,
      if_pos (by omega)]
    omega
  · intro h
    rw [value, value, div_lt_div_iff_of_pos_right hpos, Int.cast_lt, units, units,
      if_neg (by omega), if_neg (by omega)]
    omega

/-- The next word has the next pattern and the same sign, as long as there is
one. -/
theorem succ_word {b : Nat} (h : b % f.signBit + 1 < f.signBit) :
    (b + 1) % f.signBit = b % f.signBit + 1 ∧ (f.signBit ≤ b + 1 ↔ f.signBit ≤ b) := by
  have hone : 1 % f.signBit = 1 := Nat.mod_eq_of_lt (by omega)
  refine ⟨?_, ?_⟩
  · rw [Nat.add_mod, hone, Nat.mod_eq_of_lt h]
  · constructor
    · intro hle
      by_contra hlt
      rw [Nat.mod_eq_of_lt (by omega)] at h
      omega
    · omega

/-- Two roundings of one rational cannot differ in the pattern: both would be
even, and the odd pattern after the smaller one would be nearer. -/
theorem RoundsTo.pattern_le {x : ℚ} {b c : Nat} (hb : f.RoundsTo x b) (hc : f.RoundsTo x c)
    (hx : |x| < f.overflowThreshold) : b % f.signBit ≤ c % f.signBit := by
  by_contra hlt
  have hinf := infPattern_lt_signBit (f := f)
  have hsign : f.signBit ≤ c ↔ f.signBit ≤ b := hc.sign.trans hb.sign.symm
  have hcfin := (hc.finite hx).2
  have hbfin := (hb.finite hx).2
  have htie : |x - f.value b| = |x - f.value c| :=
    le_antisymm (hb.nearest hx c (hc.finite hx)) (hc.nearest hx b (hb.finite hx))
  have horder := value_strict hsign (Nat.lt_of_not_le hlt)
  have hne : f.value c ≠ f.value b := by
    rcases Nat.lt_or_ge c f.signBit with h | h
    · exact ne_of_lt (horder.1 h)
    · exact ne_of_gt (horder.2 h)
  have hparity : ∀ n, n % f.signBit % 2 = n % 2 := fun n =>
    Nat.mod_mod_of_dvd n (Nat.dvd_of_mod_eq_zero signBit_even)
  have hbEven := (hparity b).trans (hb.even hx c (hc.finite hx) hne htie)
  have hcEven := (hparity c).trans (hc.even hx b (hb.finite hx) hne.symm htie.symm)
  obtain ⟨hnext, hnextSign⟩ := succ_word (f := f) (b := c) (by omega)
  have hclt := hc.lt
  have hblt := hb.lt
  have hdfin : f.IsFinite (c + 1) := by
    refine ⟨?_, by omega⟩
    by_contra hge
    rw [show c + 1 = 2 * f.signBit by omega, Nat.mul_mod_left] at hnext
    omega
  have hcd := value_strict hnextSign.symm (by omega)
  have hdb := value_strict (hnextSign.trans hsign) (by omega)
  refine absurd (hc.nearest hx (c + 1) hdfin) (not_le.2 (abs_sub_lt_of_between htie ?_))
  rcases Nat.lt_or_ge c f.signBit with h | h
  · exact Or.inl ⟨hcd.1 h, hdb.1 (by omega)⟩
  · exact Or.inr ⟨hdb.2 (by omega), hcd.2 h⟩

theorem eq_of_pattern_eq {b c : Nat} (hb : b < 2 * f.signBit) (hc : c < 2 * f.signBit)
    (hsign : f.signBit ≤ b ↔ f.signBit ≤ c) (hpattern : b % f.signBit = c % f.signBit) :
    b = c := by
  rcases Nat.lt_or_ge b f.signBit with h | h
  · rwa [Nat.mod_eq_of_lt h, Nat.mod_eq_of_lt (by omega)] at hpattern
  · rw [Nat.mod_eq_sub_mod h, Nat.mod_eq_sub_mod (hsign.1 h), Nat.mod_eq_of_lt (by omega),
      Nat.mod_eq_of_lt (by omega)] at hpattern
    omega

/-- Rounding is a function. -/
theorem RoundsTo.unique {x : ℚ} {b c : Nat} (hb : f.RoundsTo x b) (hc : f.RoundsTo x c) :
    b = c := by
  refine eq_of_pattern_eq hb.lt hc.lt (hb.sign.trans hc.sign.symm) ?_
  rcases lt_or_ge |x| f.overflowThreshold with h | h
  · exact Nat.le_antisymm (hb.pattern_le hc h) (hc.pattern_le hb h)
  · rw [hb.overflow h, hc.overflow h]

/-! ## Doubling -/

variable (f) in
/-- The finite word `c` is exactly twice the finite word `b`. -/
structure IsDouble (b c : Nat) : Prop where
  finite : f.IsFinite c
  sign : f.signBit ≤ c ↔ f.signBit ≤ b
  value : f.value c = 2 * f.value b

theorem IsDouble.unique {b c d : Nat} (hc : f.IsDouble b c) (hd : f.IsDouble b d) : c = d := by
  have hsign : f.signBit ≤ c ↔ f.signBit ≤ d := hc.sign.trans hd.sign.symm
  have hvalue : f.value c = f.value d := hc.value.trans hd.value.symm
  refine eq_of_pattern_eq hc.finite.1 hd.finite.1 hsign ?_
  rcases Nat.lt_trichotomy (c % f.signBit) (d % f.signBit) with h | h | h
  · have horder := value_strict hsign h
    rcases Nat.lt_or_ge c f.signBit with hlt | hge
    · exact absurd hvalue (horder.1 hlt).ne
    · exact absurd hvalue (horder.2 hge).ne'
  · exact h
  · have horder := value_strict hsign.symm h
    rcases Nat.lt_or_ge d f.signBit with hlt | hge
    · exact absurd hvalue (horder.1 hlt).ne'
    · exact absurd hvalue (horder.2 hge).ne

/-- One step of the exponent doubles a normal word. -/
theorem isDouble_add {b : Nat} (hb : b < 2 * f.signBit)
    (hnormal : 2 ^ f.significandBits ≤ b % f.signBit)
    (hfit : b % f.signBit + 2 ^ f.significandBits < f.infPattern) :
    f.IsDouble b (b + 2 ^ f.significandBits) := by
  have hpow := Nat.two_pow_pos f.significandBits
  have hinf := infPattern_lt_signBit (f := f)
  have hmod : (b + 2 ^ f.significandBits) % f.signBit = b % f.signBit + 2 ^ f.significandBits := by
    rw [Nat.add_mod, Nat.mod_eq_of_lt (show 2 ^ f.significandBits < f.signBit by omega),
      Nat.mod_eq_of_lt (by omega)]
  have hmagnitude := magnitude_add_two_pow hnormal
  have hsign : f.signBit ≤ b + 2 ^ f.significandBits ↔ f.signBit ≤ b := by
    rcases Nat.lt_or_ge b f.signBit with h | h
    · rw [Nat.mod_eq_of_lt h] at hfit
      omega
    · omega
  refine ⟨⟨?_, by omega⟩, hsign, ?_⟩
  · rcases Nat.lt_or_ge b f.signBit with h | h
    · omega
    · rw [Nat.mod_eq_sub_mod h, Nat.mod_eq_of_lt (by omega)] at hfit
      omega
  · have hunits : f.units (b + 2 ^ f.significandBits) = 2 * f.units b := by
      unfold units
      rw [hmod, hmagnitude]
      split_ifs <;> omega
    rw [Format.value, Format.value, hunits]
    push_cast
    ring

end Format

end Cheesecloth.CodeLib
