import Cheesecloth.Builtins.SoftFloat.FpData

/-!
# The model of `fp_compare_impl.inc`

The comparisons read both operands as signed integers and compare those, the
other way round when both are negative.  `__leXf2__` and `__geXf2__` differ in
what they return for a NaN.

The names that the compiler calls (`__ltdf2`, `__eqdf2`, `__gtdf2` and so on) are
aliases of these two.  It tests their result against zero, so the NaN results
make every test but `!=` fail.  `compareXf2_tests` states that.
-/

namespace Cheesecloth.Builtins.SoftFloat

open CodeLib

variable {P : Precision}

/-! ## The routines -/

/-- The common body of `__leXf2__` and `__geXf2__`, with the result for a NaN as
a parameter.  `-1` is `LE_LESS` and `GE_LESS`, `0` is `LE_EQUAL` and `GE_EQUAL`,
and `1` is `LE_GREATER` and `GE_GREATER`. -/
def compareXf2 (unordered : Int) (a b : P.Rep) : Int :=
  let aInt := a.toInt
  let bInt := b.toInt
  let aAbs := a &&& P.absMask
  let bAbs := b &&& P.absMask
  if aAbs > P.infRep ∨ bAbs > P.infRep then unordered
  else if aAbs ||| bAbs = 0#P.typeWidth then 0
  else if (a &&& b).toInt ≥ 0 then
    if aInt < bInt then -1 else if aInt = bInt then 0 else 1
  else
    if aInt > bInt then -1 else if aInt = bInt then 0 else 1

/-- `__leXf2__`, with `LE_UNORDERED = 1`. -/
def leXf2 (a b : P.Rep) : Int := compareXf2 1 a b

/-- `__geXf2__`, with `GE_UNORDERED = -1`. -/
def geXf2 (a b : P.Rep) : Int := compareXf2 (-1) a b

/-- `__unordXf2__`. -/
def unordXf2 (a b : P.Rep) : Int :=
  let aAbs := a &&& P.absMask
  let bAbs := b &&& P.absMask
  if aAbs > P.infRep ∨ bAbs > P.infRep then 1 else 0

/-! ## Signed words -/

theorem toInt_eq (a : P.Rep) :
    a.toInt = (a.toNat % P.format.signBit : Nat) -
      if isNegative a then (P.format.signBit : Int) else 0 := by
  have hlt := toNat_lt a
  rw [BitVec.toInt_eq_toNat_cond, P.two_pow_typeWidth]
  unfold isNegative
  rcases Nat.lt_or_ge a.toNat P.format.signBit with h | h
  · rw [if_pos (by omega), Nat.mod_eq_of_lt h, decide_eq_false (by omega)]
    simp
  · rw [if_neg (by omega), Nat.mod_eq_sub_mod h, Nat.mod_eq_of_lt (by omega),
      decide_eq_true h, if_pos rfl]
    omega

theorem key_eq (a : P.Rep) :
    P.format.key a.toNat = if isNegative a then -((a.toNat % P.format.signBit : Nat) : Int)
      else ((a.toNat % P.format.signBit : Nat) : Int) := by
  unfold Format.key isNegative
  by_cases h : P.format.signBit ≤ a.toNat <;> simp [h]

theorem and_isNegative (a b : P.Rep) : isNegative (a &&& b) = (isNegative a && isNegative b) := by
  rw [← testBit_sign, BitVec.toNat_and, Nat.testBit_and, testBit_sign, testBit_sign]

/-- The word `a & b` is negative when both operands are. -/
theorem and_toInt_nonneg_iff (a b : P.Rep) :
    (a &&& b).toInt ≥ 0 ↔ (isNegative a && isNegative b) = false := by
  have hlt := Nat.mod_lt (a &&& b).toNat (show 0 < P.format.signBit from Nat.two_pow_pos _)
  rw [toInt_eq, and_isNegative]
  generalize (a &&& b).toNat % P.format.signBit = m at *
  cases isNegative a && isNegative b <;> simp
  omega

theorem abs_or_eq_zero_iff (a b : P.Rep) :
    a &&& P.absMask ||| b &&& P.absMask = 0#P.typeWidth ↔
      a.toNat % P.format.signBit = 0 ∧ b.toNat % P.format.signBit = 0 := by
  rw [← BitVec.toNat_inj, BitVec.toNat_or, BitVec.toNat_zero, Nat.or_eq_zero_iff, abs_toNat,
    abs_toNat]

/-! ## Correctness -/

/-- The result of a comparison, by the order of the operands. -/
def compareResult (unordered : Int) : Option Ordering → Int
  | none => unordered
  | some .lt => -1
  | some .eq => 0
  | some .gt => 1

theorem compareResult_cmp {α : Type*} [LinearOrder α] (unordered : Int) (x y : α) :
    compareResult unordered (some (cmp x y)) = if x < y then -1 else if x = y then 0 else 1 := by
  unfold cmp cmpUsing
  rcases lt_trichotomy x y with h | h | h
  · simp [h, compareResult]
  · simp [h, compareResult]
  · simp [h, h.not_gt, h.ne', compareResult]

/-- The first test of the routines. -/
theorem abs_gt_infRep_iff_unordered (a b : P.Rep) :
    (a &&& P.absMask > P.infRep ∨ b &&& P.absMask > P.infRep) ↔
      (P.format.datum a.toNat).compare (P.format.datum b.toNat) = none := by
  rw [abs_gt_infRep_iff, abs_gt_infRep_iff]
  constructor
  · rintro (h | h)
    · rw [Format.datum_nan h, Datum.nan_compare]
    · rw [Format.datum_nan h, Datum.compare_nan]
  · intro h
    by_contra hnan
    rw [not_or, Nat.not_lt, Nat.not_lt] at hnan
    rw [Format.compare_datum hnan.1 hnan.2] at h
    exact Option.some_ne_none _ h

/-- Away from NaNs the routine compares the signed patterns. -/
theorem compareXf2_key (unordered : Int) {a b : P.Rep}
    (ha : a.toNat % P.format.signBit ≤ P.format.infPattern)
    (hb : b.toNat % P.format.signBit ≤ P.format.infPattern) :
    compareXf2 unordered a b =
      if P.format.key a.toNat < P.format.key b.toNat then -1
      else if P.format.key a.toNat = P.format.key b.toNat then 0 else 1 := by
  have hnan : ¬ (a &&& P.absMask > P.infRep ∨ b &&& P.absMask > P.infRep) := by
    rw [abs_gt_infRep_iff_unordered, Format.compare_datum ha hb]
    exact Option.some_ne_none _
  have hlta := Nat.mod_lt a.toNat (show 0 < P.format.signBit from Nat.two_pow_pos _)
  have hltb := Nat.mod_lt b.toNat (show 0 < P.format.signBit from Nat.two_pow_pos _)
  unfold compareXf2
  dsimp only
  rw [if_neg hnan]
  simp only [abs_or_eq_zero_iff, and_toInt_nonneg_iff]
  rw [toInt_eq, toInt_eq, key_eq, key_eq]
  generalize a.toNat % P.format.signBit = m at *
  generalize b.toNat % P.format.signBit = n at *
  cases isNegative a <;> cases isNegative b <;> simp <;> split_ifs <;> omega

/-- The comparisons return what the order of the operands asks for, on every
pair of bit patterns. -/
theorem compareXf2_eq (unordered : Int) (a b : P.Rep) :
    compareXf2 unordered a b = compareResult unordered
      ((P.format.datum a.toNat).compare (P.format.datum b.toNat)) := by
  by_cases hnan : P.format.infPattern < a.toNat % P.format.signBit ∨
      P.format.infPattern < b.toNat % P.format.signBit
  · have hnone : (P.format.datum a.toNat).compare (P.format.datum b.toNat) = none := by
      rcases hnan with h | h
      · rw [Format.datum_nan h, Datum.nan_compare]
      · rw [Format.datum_nan h, Datum.compare_nan]
    rw [hnone, compareXf2, if_pos ((abs_gt_infRep_iff_unordered a b).2 hnone), compareResult]
  · rw [not_or, Nat.not_lt, Nat.not_lt] at hnan
    rw [compareXf2_key unordered hnan.1 hnan.2, Format.compare_datum hnan.1 hnan.2,
      compareResult_cmp]

/-- What the compiler's tests against zero decide.  A NaN fails all of them but
the test of `__unordXf2__`. -/
theorem compareXf2_tests (a b : P.Rep) :
    (leXf2 a b < 0 ↔ (P.format.datum a.toNat).compare (P.format.datum b.toNat) = some .lt) ∧
    (leXf2 a b = 0 ↔ (P.format.datum a.toNat).compare (P.format.datum b.toNat) = some .eq) ∧
    (leXf2 a b ≤ 0 ↔ (P.format.datum a.toNat).compare (P.format.datum b.toNat) = some .lt ∨
      (P.format.datum a.toNat).compare (P.format.datum b.toNat) = some .eq) ∧
    (geXf2 a b > 0 ↔ (P.format.datum a.toNat).compare (P.format.datum b.toNat) = some .gt) ∧
    (geXf2 a b ≥ 0 ↔ (P.format.datum a.toNat).compare (P.format.datum b.toNat) = some .gt ∨
      (P.format.datum a.toNat).compare (P.format.datum b.toNat) = some .eq) ∧
    (unordXf2 a b ≠ 0 ↔ (P.format.datum a.toNat).compare (P.format.datum b.toNat) = none) := by
  rw [leXf2, geXf2, unordXf2, compareXf2_eq, compareXf2_eq]
  simp only [abs_gt_infRep_iff_unordered]
  generalize (P.format.datum a.toNat).compare (P.format.datum b.toNat) = order
  rcases order with _ | (_ | _ | _) <;> decide

end Cheesecloth.Builtins.SoftFloat
