import Cheesecloth.CodeLib.NearestEven

/-!
# Bits of machine words

The bit operations that word-level code uses as arithmetic, each with the
number it computes.

* `signMask_of_msb` and `signMask_of_not_msb`: an arithmetic shift by all but
  one bit copies the sign bit everywhere.
* `toNat_and_lowMask`, `toNat_or_disjoint`, `toNat_or_bit` and
  `and_singleBit_eq_zero_iff`: masks, unions and single-bit tests as
  remainders, sums and comparisons.
* `shiftLeft_eq_zero_iff` and `toNat_shiftRight_or_sticky`: a right shift that
  collects the dropped bits, and the left shift that looks at them.
-/

namespace Cheesecloth.CodeLib.Bits

variable {w : Nat}

/-! ## The sign mask -/

/-- The arithmetic shift of a negative word by `w - 1` is all ones. -/
theorem signMask_of_msb {x : BitVec w} (h : 2 ^ (w - 1) ≤ x.toNat) :
    x.sshiftRight (w - 1) = BitVec.allOnes w := by
  have hw : 0 < w := by
    rcases Nat.eq_zero_or_pos w with rfl | hw
    · have := x.isLt
      simp at h this
      omega
    · exact hw
  have hpow : 2 ^ w = 2 ^ (w - 1) + 2 ^ (w - 1) := by
    rw [← Nat.two_mul, ← Nat.pow_succ', Nat.succ_eq_add_one, Nat.sub_add_cancel hw]
  apply BitVec.eq_of_toNat_eq
  rw [BitVec.toNat_sshiftRight_of_msb_true (by simpa [BitVec.msb_eq_decide] using h),
    BitVec.toNat_allOnes, Nat.shiftRight_eq_div_pow, Nat.div_eq_of_lt (by omega), Nat.sub_zero]

/-- The arithmetic shift of a non-negative word by `w - 1` is zero. -/
theorem signMask_of_not_msb {x : BitVec w} (h : x.toNat < 2 ^ (w - 1)) :
    x.sshiftRight (w - 1) = 0#w := by
  apply BitVec.eq_of_toNat_eq
  rw [BitVec.toNat_sshiftRight_of_msb_false (by simpa [BitVec.msb_eq_decide] using h),
    Nat.shiftRight_eq_div_pow, Nat.div_eq_of_lt h, BitVec.toNat_zero]

/-! ## Masks, unions and single bits -/

theorem toNat_and_lowMask {x m : BitVec w} {k : Nat} (hm : m.toNat = 2 ^ k - 1) :
    (x &&& m).toNat = x.toNat % 2 ^ k := by
  rw [BitVec.toNat_and, hm, Nat.and_two_pow_sub_one_eq_mod]

theorem toNat_lt_twice {k : Nat} (hw : w = k + 1) (x : BitVec w) : x.toNat < 2 * 2 ^ k := by
  rw [← Nat.pow_succ', Nat.succ_eq_add_one, ← hw]
  exact x.isLt

/-- The top bit of a word. -/
theorem and_topBit {x m : BitVec w} {k : Nat} (hw : w = k + 1) (hm : m.toNat = 2 ^ k) :
    x &&& m = if 2 ^ k ≤ x.toNat then m else 0#w := by
  subst hw
  have hlt := x.isLt
  rw [Nat.pow_succ] at hlt
  apply BitVec.eq_of_toNat_eq
  rw [BitVec.toNat_and, hm, Nat.and_two_pow, Nat.testBit_eq_decide_div_mod_eq]
  rcases Nat.lt_or_ge x.toNat (2 ^ k) with h | h
  · rw [Nat.div_eq_of_lt h, if_neg (Nat.not_le.2 h)]
    simp
  · rw [Nat.div_eq_of_lt_le (k := 1) (by omega) (by omega), if_pos h, hm]
    simp

/-- The union of a word below bit `k` with one that is clear there. -/
theorem toNat_or_disjoint {x y : BitVec w} {k c : Nat} (hx : x.toNat < 2 ^ k)
    (hy : y.toNat = c * 2 ^ k) : (x ||| y).toNat = x.toNat + y.toNat := by
  rw [BitVec.toNat_or, hy, Nat.or_comm, Nat.mul_comm, ← Nat.two_pow_add_eq_or_of_lt hx,
    Nat.add_comm]

/-- A word that is put together from its top bit and the bits below it. -/
theorem toNat_or_topBit {x m : BitVec w} {k : Nat} (hm : m.toNat = 2 ^ k)
    (c : Prop) [Decidable c] (hx : x.toNat < 2 ^ k) :
    (x ||| if c then m else 0#w).toNat = (if c then 2 ^ k else 0) + x.toNat := by
  by_cases h : c
  · rw [if_pos h, if_pos h, toNat_or_disjoint (c := 1) hx (by rw [hm, Nat.one_mul]), hm,
      Nat.add_comm]
  · rw [if_neg h, if_neg h, BitVec.or_zero, Nat.zero_add]

theorem or_one_eq (n : Nat) : n ||| 1 = n / 2 * 2 + 1 := by
  have hdouble : ∀ a : Nat, 2 * a ||| 1 = 2 * a + 1 := fun a => by
    simpa using (Nat.two_pow_add_eq_or_of_lt (i := 1) (b := 1) (by decide) a).symm
  rcases Nat.mod_two_eq_zero_or_one n with h | h
  · obtain ⟨a, rfl⟩ : ∃ a, n = 2 * a := ⟨n / 2, by omega⟩
    rw [hdouble]
    omega
  · obtain ⟨a, rfl⟩ : ∃ a, n = 2 * a + 1 := ⟨n / 2, by omega⟩
    rw [← hdouble, Nat.or_assoc, Nat.or_self, hdouble]
    omega

/-- A single bit is set. -/
theorem or_two_pow_eq (n k : Nat) : n ||| 2 ^ k = (n / 2 ^ k / 2 * 2 + 1) * 2 ^ k + n % 2 ^ k := by
  have hpos := Nat.two_pow_pos k
  have hdiv : (n ||| 2 ^ k) / 2 ^ k = n / 2 ^ k / 2 * 2 + 1 := by
    rw [Nat.or_div_two_pow, Nat.div_self hpos, or_one_eq]
  have hmod : (n ||| 2 ^ k) % 2 ^ k = n % 2 ^ k := by
    rw [Nat.or_mod_two_pow, Nat.mod_self, Nat.or_zero]
  rw [← hdiv, ← hmod, Nat.div_add_mod']

/-- The union with a truth value, which C reads as `0` or `1`. -/
theorem toNat_or_bit (hw : 0 < w) (x : BitVec w) (c : Bool) :
    (x ||| if c then 1#w else 0#w).toNat = if c then x.toNat / 2 * 2 + 1 else x.toNat := by
  have hone : (1#w).toNat = 1 := by
    rw [BitVec.toNat_ofNat, Nat.mod_eq_of_lt (Nat.one_lt_two_pow hw.ne')]
  cases c
  · simp
  · rw [if_pos rfl, if_pos rfl, BitVec.toNat_or, hone, or_one_eq]

theorem and_singleBit_eq_zero_iff {x m : BitVec w} {k : Nat} (hm : m.toNat = 2 ^ k) :
    x &&& m = 0#w ↔ x.toNat / 2 ^ k % 2 = 0 := by
  have hpos := Nat.two_pow_pos k
  rw [← BitVec.toNat_inj, BitVec.toNat_and, hm, Nat.and_two_pow,
    Nat.testBit_eq_decide_div_mod_eq, BitVec.toNat_zero, Nat.mul_eq_zero]
  rcases Nat.mod_two_eq_zero_or_one (x.toNat / 2 ^ k) with h | h <;> simp [h]

/-- Clearing the leading bit with an exclusive or. -/
theorem toNat_xor_lead {x m : BitVec w} {k : Nat} (hm : m.toNat = 2 ^ k) (hge : 2 ^ k ≤ x.toNat)
    (hlt : x.toNat < 2 ^ (k + 1)) : (x ^^^ m).toNat = x.toNat - 2 ^ k := by
  have hpos := Nat.two_pow_pos k
  rw [Nat.pow_succ] at hlt
  have hdiv : x.toNat / 2 ^ k = 1 := Nat.div_eq_of_lt_le (by omega) (by omega)
  have hmod : x.toNat % 2 ^ k = x.toNat - 2 ^ k := by
    rw [Nat.mod_eq_sub_mod hge, Nat.mod_eq_of_lt (by omega)]
  have hxdiv : (x.toNat ^^^ 2 ^ k) / 2 ^ k = 0 := by
    rw [Nat.xor_div_two_pow, hdiv, Nat.div_self hpos, Nat.xor_self]
  have hxmod : (x.toNat ^^^ 2 ^ k) % 2 ^ k = x.toNat - 2 ^ k := by
    rw [Nat.xor_mod_two_pow, Nat.mod_self, Nat.xor_zero, hmod]
  have hsplit := Nat.div_add_mod' (x.toNat ^^^ 2 ^ k) (2 ^ k)
  rw [BitVec.toNat_xor, hm]
  rw [hxdiv, hxmod] at hsplit
  omega

/-! ## Shifts -/

theorem toNat_shiftLeft_of_lt {x : BitVec w} {k : Nat} (h : x.toNat * 2 ^ k < 2 ^ w) :
    (x <<< k).toNat = x.toNat * 2 ^ k := by
  rw [BitVec.toNat_shiftLeft, Nat.shiftLeft_eq, Nat.mod_eq_of_lt h]

theorem toNat_shiftRight (x : BitVec w) (k : Nat) : (x >>> k).toNat = x.toNat / 2 ^ k := by
  rw [BitVec.toNat_ushiftRight, Nat.shiftRight_eq_div_pow]

/-- A word above another one. -/
theorem toNat_append {v : Nat} (h : BitVec v) (l : BitVec w) :
    (h ++ l).toNat = h.toNat * 2 ^ w + l.toNat := by
  rw [BitVec.toNat_append, Nat.shiftLeft_eq, Nat.mul_comm, ← Nat.two_pow_add_eq_or_of_lt l.isLt]

/-- The upper word of two. -/
theorem toNat_extractHigh {v : Nat} (x : BitVec (v + w)) :
    (x.extractLsb' w v).toNat = x.toNat / 2 ^ w := by
  have hlt := x.isLt
  rw [Nat.pow_add] at hlt
  rw [BitVec.extractLsb'_toNat, Nat.shiftRight_eq_div_pow,
    Nat.mod_eq_of_lt ((Nat.div_lt_iff_lt_mul (Nat.two_pow_pos w)).2 hlt)]

/-- The lower word of two. -/
theorem toNat_extractLow {v : Nat} (x : BitVec (v + w)) :
    (x.extractLsb' 0 w).toNat = x.toNat % 2 ^ w := by
  rw [BitVec.extractLsb'_toNat, Nat.shiftRight_zero]

/-- A shift by one that takes a bit in. -/
theorem toNat_shiftLeft_one_or (x : BitVec w) {y : BitVec w} (hy : y.toNat < 2) :
    (x <<< 1 ||| y).toNat = (x.toNat * 2 + y.toNat) % 2 ^ w := by
  rcases Nat.eq_zero_or_pos w with rfl | hw
  · rw [Nat.pow_zero, Nat.mod_one]
    exact Nat.lt_one_iff.1 (x <<< 1 ||| y).isLt
  have hpow : 2 ^ w = 2 ^ (w - 1) * 2 := by
    rw [← Nat.pow_succ, Nat.succ_eq_add_one, Nat.sub_add_cancel hw]
  have hmod := Nat.mod_lt x.toNat (Nat.two_pow_pos (w - 1))
  have hsplit : x.toNat * 2 + y.toNat =
      x.toNat % 2 ^ (w - 1) * 2 + y.toNat + 2 ^ (w - 1) * 2 * (x.toNat / 2 ^ (w - 1)) := by
    conv_lhs => rw [← Nat.mod_add_div x.toNat (2 ^ (w - 1))]
    ring
  have hor := Nat.two_pow_add_eq_or_of_lt (i := 1) hy (x.toNat % 2 ^ (w - 1))
  rw [BitVec.toNat_or, BitVec.toNat_shiftLeft, Nat.shiftLeft_eq, Nat.pow_one, hpow,
    Nat.mul_mod_mul_right, hsplit, Nat.add_mul_mod_self_left,
    Nat.mod_eq_of_lt (show x.toNat % 2 ^ (w - 1) * 2 + y.toNat < 2 ^ (w - 1) * 2 by omega),
    Nat.mul_comm (x.toNat % 2 ^ (w - 1)) 2]
  exact hor.symm

/-- All ones, shifted down to the low `k` bits. -/
theorem toNat_allOnes_shiftRight {k : Nat} (hk : k ≤ w) :
    (BitVec.allOnes w >>> (w - k)).toNat = 2 ^ k - 1 := by
  have hpow : 2 ^ w = 2 ^ k * 2 ^ (w - k) := by rw [← Nat.pow_add, Nat.add_sub_of_le hk]
  have hpos := Nat.two_pow_pos (w - k)
  have hproduct : 2 ^ (w - k) ≤ 2 ^ k * 2 ^ (w - k) :=
    Nat.le_mul_of_pos_left _ (Nat.two_pow_pos k)
  rw [toNat_shiftRight, BitVec.toNat_allOnes, hpow]
  apply Nat.div_eq_of_lt_le
  · rw [Nat.sub_mul]
    omega
  · rw [Nat.sub_add_cancel (Nat.two_pow_pos k)]
    omega

/-- A shift by all but `k` bits keeps the low `k` bits. -/
theorem shiftLeft_eq_zero_iff {x : BitVec w} {k : Nat} (hk : k ≤ w) :
    x <<< (w - k) = 0#w ↔ x.toNat % 2 ^ k = 0 := by
  have hpow : 2 ^ w = 2 ^ k * 2 ^ (w - k) := by rw [← Nat.pow_add, Nat.add_sub_of_le hk]
  rw [← BitVec.toNat_inj, BitVec.toNat_shiftLeft, Nat.shiftLeft_eq, hpow,
    Nat.mul_mod_mul_right, BitVec.toNat_zero, Nat.mul_eq_zero]
  simp

/-- A right shift and a truth value that says whether a dropped bit was set. -/
theorem toNat_shiftRight_or_sticky (hw : 0 < w) (x : BitVec w) {k : Nat} {sticky : Bool}
    (h : sticky = true ↔ x.toNat % 2 ^ k ≠ 0) :
    (x >>> k ||| if sticky then 1#w else 0#w).toNat = stickyShift x.toNat k := by
  rw [toNat_or_bit hw, toNat_shiftRight, stickyShift]
  by_cases hzero : x.toNat % 2 ^ k = 0
  · rw [if_pos hzero, if_neg (fun hs => h.1 hs hzero)]
  · rw [if_neg hzero, if_pos (h.2 hzero)]

/-! ## Differences -/

/-- A difference that fits the word is exact, however large the operands that
wrapped. -/
theorem toNat_sub_of_wrapped {x y : BitVec w} {u v : Nat} (hx : x.toNat = u % 2 ^ w)
    (hy : y.toNat = v % 2 ^ w) (hle : v ≤ u) (hlt : u - v < 2 ^ w) : (x - y).toNat = u - v := by
  have hsub : x - y = BitVec.ofNat w (u - v) := by
    obtain ⟨d, rfl⟩ := Nat.exists_eq_add_of_le hle
    have hx' : x = BitVec.ofNat w (v + d) := BitVec.eq_of_toNat_eq (by rw [hx, BitVec.toNat_ofNat])
    have hy' : y = BitVec.ofNat w v := BitVec.eq_of_toNat_eq (by rw [hy, BitVec.toNat_ofNat])
    rw [hx', hy', BitVec.ofNat_add, Nat.add_sub_cancel_left, BitVec.add_comm, BitVec.add_sub_cancel]
  rw [hsub, BitVec.toNat_ofNat, Nat.mod_eq_of_lt hlt]

/-- A word is between two others exactly when it wraps below the upper one and
not below the lower one. -/
theorem sub_lt_sub_iff {x lo hi : BitVec w} (h : lo.toNat < hi.toNat) :
    x - lo < x - hi ↔ lo.toNat ≤ x.toNat ∧ x.toNat < hi.toNat := by
  have hx := x.isLt
  have hhi := hi.isLt
  have hsub : ∀ y : BitVec w, (x - y).toNat =
      if y.toNat ≤ x.toNat then x.toNat - y.toNat else 2 ^ w + x.toNat - y.toNat := by
    intro y
    have hy := y.isLt
    rw [BitVec.toNat_sub]
    split_ifs with hle
    · rw [Nat.mod_eq_sub_mod (by omega), Nat.mod_eq_of_lt (by omega)]
      omega
    · rw [Nat.mod_eq_of_lt (by omega)]
      omega
  rw [BitVec.lt_def, hsub, hsub]
  split_ifs <;> omega

end Cheesecloth.CodeLib.Bits
