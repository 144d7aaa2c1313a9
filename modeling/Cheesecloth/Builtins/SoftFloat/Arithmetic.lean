import Cheesecloth.Builtins.SoftFloat.FpAdd
import Cheesecloth.Builtins.SoftFloat.FpData
import Cheesecloth.Builtins.SoftFloat.FpDiv

/-!
# The arithmetic routines against the standard

`__addXf3__`, `__subXf3__`, `__mulXf3__` and `__divXf3__` on every pair of bit
patterns: NaNs, infinities, both zeros, denormals and normal numbers.  Each runs
without a fault and delivers what the standard asks for.

The finite cases are those of the modules of the routines.  Here are the
branches for special operands.
-/

namespace Cheesecloth.Builtins.SoftFloat

open CodeLib CodeLib.Checked

variable {P : Precision}

/-! ## Addition and subtraction -/

/-- The first test of the routine: `infRep - 1` and more, after `1` is taken
off, are the infinities and the NaNs. -/
theorem addSpecialOperands_guard {a b : P.Rep}
    (h : P.format.infPattern ≤ a.toNat % P.format.signBit ∨
      P.format.infPattern ≤ b.toNat % P.format.signBit) :
    (a &&& P.absMask) - 1#P.typeWidth ≥ P.infRep - 1#P.typeWidth ∨
      (b &&& P.absMask) - 1#P.typeWidth ≥ P.infRep - 1#P.typeWidth := by
  have hpos := Format.infPattern_pos (f := P.format)
  have hone : (1#P.typeWidth).toNat = 1 := by cases P <;> rfl
  have hword : ∀ x : P.Rep, P.format.infPattern ≤ x.toNat % P.format.signBit →
      (x &&& P.absMask) - 1#P.typeWidth ≥ P.infRep - 1#P.typeWidth := by
    intro x hx
    rw [ge_iff_le, BitVec.le_def, BitVec.toNat_sub_of_le, BitVec.toNat_sub_of_le, abs_toNat,
      P.infRep_toNat, hone]
    · exact Nat.sub_le_sub_right hx 1
    · rw [BitVec.le_def, abs_toNat, hone]
      omega
    · rw [BitVec.le_def, P.infRep_toNat, hone]
      omega
  exact h.imp (hword a) (hword b)

/-- The sum of finite operands. -/
theorem addXf3_finite {a b : P.Rep} (ha : P.format.IsFinite a.toNat)
    (hb : P.format.IsFinite b.toNat) :
    ∃ r : P.Rep, addXf3 a b = .ok r ∧
      P.format.Delivers (Datum.add (.finite (isNegative a) (P.format.value a.toNat))
        (.finite (isNegative b) (P.format.value b.toNat))) r.toNat := by
  by_cases hzeros : a = P.signBit ∧ b = P.signBit
  · obtain ⟨rfl, rfl⟩ := hzeros
    refine ⟨P.signBit, by cases P <;> rfl, ?_⟩
    have hvalue : P.format.value P.signBit.toNat = 0 :=
      Format.value_eq_zero_iff.2 (Format.units_eq_zero_iff.2 (by cases P <;> rfl))
    have hsign : isNegative P.signBit = true := by cases P <;> rfl
    rw [hvalue, hsign, Datum.add, if_pos (add_zero 0)]
    exact delivers_zero true
  · obtain ⟨r, hr, hrounds⟩ := addXf3_roundsTo ha hb hzeros
    refine ⟨r, hr, ?_⟩
    rw [Datum.add]
    by_cases hsum : P.format.value a.toNat + P.format.value b.toNat = 0
    · -- both operands are negative only if both are `-0`
      have hsign : (isNegative a && isNegative b) = false := by
        by_contra hboth
        rw [Bool.not_eq_false, Bool.and_eq_true] at hboth
        have hunits : P.format.units a.toNat + P.format.units b.toNat = 0 := by
          rw [Format.value, Format.value, ← add_div, div_eq_zero_iff] at hsum
          exact_mod_cast hsum.resolve_right (by positivity)
        rw [units_eq, units_eq, if_pos hboth.1, if_pos hboth.2] at hunits
        have hzero : ∀ x : P.Rep, isNegative x = true →
            magnitude P.significandBits (x.toNat % P.format.signBit) = 0 → x = P.signBit := by
          intro x hx hm
          have hpattern : x.toNat % P.format.signBit = 0 := by
            rw [← Format.units_eq_zero_iff, ← Int.natAbs_eq_zero, Format.natAbs_units]
            exact hm
          rcases eq_zero_or_signBit hpattern with rfl | rfl
          · cases P <;> exact absurd hx (by decide)
          · rfl
        exact hzeros ⟨hzero a hboth.1 (by omega), hzero b hboth.2 (by omega)⟩
      rw [if_pos hsum, hsign]
      rw [hsum] at hrounds
      exact hrounds.unique Format.roundsTo_zero
    · rw [if_neg hsum]
      exact hrounds

/-- Two infinities differ in the sign bit exactly when their signs differ. -/
theorem xor_eq_signBit_iff {a b : P.Rep}
    (h : a.toNat % P.format.signBit = b.toNat % P.format.signBit) :
    a ^^^ b = P.signBit ↔ isNegative a ≠ isNegative b := by
  have hswap : a ^^^ b = P.signBit ↔ b ^^^ P.signBit = a := by
    constructor
    · intro hxor
      rw [← hxor, BitVec.xor_comm a, ← BitVec.xor_assoc, BitVec.xor_self, BitVec.zero_xor]
    · rintro rfl
      rw [BitVec.xor_comm b, BitVec.xor_assoc, BitVec.xor_self, BitVec.xor_zero]
  rw [hswap]
  constructor
  · rintro rfl
    rw [xor_signBit_isNegative]
    cases isNegative b <;> decide
  · intro hsign
    refine eq_of_sign_pattern ?_ ((xor_signBit_pattern b).trans h.symm)
    rw [xor_signBit_isNegative]
    cases ha : isNegative a <;> cases hb : isNegative b <;> simp_all

/-- An infinite or NaN operand takes the branch for special operands. -/
theorem addSpecialOperands_delivers {a b : P.Rep}
    (h : ¬ (P.format.IsFinite a.toNat ∧ P.format.IsFinite b.toNat)) :
    ∃ r : P.Rep, addSpecialOperands a b = some r ∧
      P.format.Delivers ((P.format.datum a.toNat).add (P.format.datum b.toNat)) r.toNat := by
  have hcasesA := Format.word_cases (toNat_lt a)
  have hcasesB := Format.word_cases (toNat_lt b)
  have hguard := addSpecialOperands_guard (a := a) (b := b) (by
    by_contra hlt
    exact h ⟨⟨toNat_lt a, by omega⟩, toNat_lt b, by omega⟩)
  unfold addSpecialOperands
  simp only [if_pos hguard]
  rcases hcasesA with ha | ha | ha
  · refine ⟨_, if_pos (abs_gt_infRep_iff.2 ha), ?_⟩
    rw [Format.datum_nan ha, Datum.nan_add]
    exact delivers_quiet ha
  · have hnan : ¬ (a &&& P.absMask > P.infRep) := by rw [abs_gt_infRep_iff]; omega
    rw [if_neg hnan, datum_eq_inf ha]
    rcases hcasesB with hb | hb | hb
    · refine ⟨_, if_pos (abs_gt_infRep_iff.2 hb), ?_⟩
      rw [Format.datum_nan hb, Datum.add_nan]
      exact delivers_quiet hb
    · have hnanB : ¬ (b &&& P.absMask > P.infRep) := by rw [abs_gt_infRep_iff]; omega
      rw [if_neg hnanB, if_pos (abs_eq_infRep_iff.2 ha), datum_eq_inf hb, Datum.add]
      by_cases hsign : isNegative a = isNegative b
      · refine ⟨a, if_neg ?_, ?_⟩
        · rw [xor_eq_signBit_iff (ha.trans hb.symm)]
          exact not_not.2 hsign
        · rw [if_pos hsign]
          exact delivers_self ha
      · refine ⟨P.qnanRep, if_pos ((xor_eq_signBit_iff (ha.trans hb.symm)).2 hsign), ?_⟩
        rw [if_neg hsign]
        exact delivers_qnan
    · rw [if_neg (not_abs_gt_infRep hb), if_pos (abs_eq_infRep_iff.2 ha), datum_eq_finite hb,
        Datum.add]
      refine ⟨a, if_neg ?_, delivers_self ha⟩
      intro hxor
      have hpattern : a.toNat % P.format.signBit = b.toNat % P.format.signBit := by
        rw [← xor_signBit_pattern b, ← hxor, BitVec.xor_comm a, ← BitVec.xor_assoc,
          BitVec.xor_self, BitVec.zero_xor]
      have := hb.2
      omega
  · rw [if_neg (not_abs_gt_infRep ha), if_neg (abs_ne_infRep ha), datum_eq_finite ha]
    rcases hcasesB with hb | hb | hb
    · refine ⟨_, if_pos (abs_gt_infRep_iff.2 hb), ?_⟩
      rw [Format.datum_nan hb, Datum.add_nan]
      exact delivers_quiet hb
    · have hnanB : ¬ (b &&& P.absMask > P.infRep) := by rw [abs_gt_infRep_iff]; omega
      rw [if_neg hnanB, if_pos (abs_eq_infRep_iff.2 hb), datum_eq_inf hb, Datum.add]
      exact ⟨b, rfl, delivers_self hb⟩
    · exact absurd ⟨ha, hb⟩ h

/-- `__addXf3__` delivers the sum of any two words. -/
theorem addXf3_delivers (a b : P.Rep) :
    ∃ r : P.Rep, addXf3 a b = .ok r ∧
      P.format.Delivers ((P.format.datum a.toNat).add (P.format.datum b.toNat)) r.toNat := by
  by_cases h : P.format.IsFinite a.toNat ∧ P.format.IsFinite b.toNat
  · rw [datum_eq_finite h.1, datum_eq_finite h.2]
    exact addXf3_finite h.1 h.2
  · obtain ⟨r, hr, hdelivers⟩ := addSpecialOperands_delivers h
    exact ⟨r, by rw [addXf3, hr]; rfl, hdelivers⟩

/-- `__addXf3__` and `__subXf3__` deliver the sum and the difference of any two
words. -/
theorem addXf3_subXf3_deliver (a b : P.Rep) :
    (∃ r : P.Rep, addXf3 a b = .ok r ∧
      P.format.Delivers ((P.format.datum a.toNat).add (P.format.datum b.toNat)) r.toNat) ∧
    ∃ r : P.Rep, subXf3 a b = .ok r ∧
      P.format.Delivers ((P.format.datum a.toNat).sub (P.format.datum b.toNat)) r.toNat := by
  refine ⟨addXf3_delivers a b, ?_⟩
  rw [Datum.sub, ← datum_xor_signBit]
  exact addXf3_delivers a (b ^^^ P.signBit)

/-! ## Multiplication -/

/-- An infinite or NaN operand is special: its exponent is the largest. -/
theorem hasSpecialExponent_of_nonfinite {a b : P.Rep}
    (h : ¬ (P.format.IsFinite a.toNat ∧ P.format.IsFinite b.toNat)) : hasSpecialExponent a b := by
  have hword : ∀ x : P.Rep, P.format.infPattern ≤ x.toNat % P.format.signBit →
      (exponentField x).setWidth 32 - 1#32 ≥ BitVec.ofNat 32 P.maxExponent - 1#32 := by
    intro x hx
    have hmax := P.maxExponent_bounds
    have hfield : P.maxExponent ≤ (exponentField x).toNat := by
      rwa [exponentField_toNat, Nat.le_div_iff_mul_le (Nat.two_pow_pos _), ← P.format_infPattern]
    have heq : (exponentField x).setWidth 32 = BitVec.ofNat 32 P.maxExponent := by
      apply BitVec.eq_of_toNat_eq
      rw [(exponent_toNat x).1, BitVec.toNat_ofNat, Nat.mod_eq_of_lt (by omega)]
      exact Nat.le_antisymm (exponent_toNat x).2 hfield
    rw [heq]
    exact BitVec.le_refl _
  rcases Nat.lt_or_ge (a.toNat % P.format.signBit) P.format.infPattern with ha | ha
  · refine Or.inr (hword b (Nat.le_of_not_lt fun hb => h ⟨⟨toNat_lt a, ha⟩, toNat_lt b, hb⟩))
  · exact Or.inl (hword a ha)

/-- A finite word with a value of zero. -/
theorem value_eq_zero_iff_abs {a : P.Rep} :
    P.format.value a.toNat = 0 ↔ a &&& P.absMask = 0#P.typeWidth := by
  rw [Format.value_eq_zero_iff, Format.units_eq_zero_iff, abs_eq_zero_iff]

theorem infRep_ne_zero : P.infRep ≠ 0#P.typeWidth := by
  cases P <;> decide

/-- The branch for infinite and NaN operands. -/
theorem mulSpecialOperands_delivers {a b : P.Rep}
    (h : ¬ (P.format.IsFinite a.toNat ∧ P.format.IsFinite b.toNat)) :
    ∃ r : P.Rep, mulSpecialOperands a b = some r ∧
      P.format.Delivers ((P.format.datum a.toNat).mul (P.format.datum b.toNat)) r.toNat := by
  unfold mulSpecialOperands
  simp only [if_pos (hasSpecialExponent_of_nonfinite h), productSign_eq]
  rcases Format.word_cases (toNat_lt a) with ha | ha | ha
  · refine ⟨_, if_pos (abs_gt_infRep_iff.2 ha), ?_⟩
    rw [Format.datum_nan ha, Datum.nan_mul]
    exact delivers_quiet ha
  · have hnan : ¬ (a &&& P.absMask > P.infRep) := by rw [abs_gt_infRep_iff]; omega
    rw [if_neg hnan, datum_eq_inf ha]
    rcases Format.word_cases (toNat_lt b) with hb | hb | hb
    · refine ⟨_, if_pos (abs_gt_infRep_iff.2 hb), ?_⟩
      rw [Format.datum_nan hb, Datum.mul_nan]
      exact delivers_quiet hb
    · have hnanB : ¬ (b &&& P.absMask > P.infRep) := by rw [abs_gt_infRep_iff]; omega
      rw [if_neg hnanB, abs_eq_infRep_iff.2 ha, abs_eq_infRep_iff.2 hb, if_pos rfl,
        if_pos infRep_ne_zero, datum_eq_inf hb, Datum.mul]
      exact ⟨_, rfl, delivers_inf _⟩
    · rw [if_neg (not_abs_gt_infRep hb), abs_eq_infRep_iff.2 ha, if_pos rfl, datum_eq_finite hb,
        Datum.mul]
      by_cases hzero : P.format.value b.toNat = 0
      · rw [if_neg (not_not.2 (value_eq_zero_iff_abs.1 hzero)), if_pos hzero]
        exact ⟨_, rfl, delivers_qnan⟩
      · rw [if_pos (mt value_eq_zero_iff_abs.2 hzero), if_neg hzero]
        exact ⟨_, rfl, delivers_inf _⟩
  · rw [if_neg (not_abs_gt_infRep ha), if_neg (abs_ne_infRep ha), datum_eq_finite ha]
    rcases Format.word_cases (toNat_lt b) with hb | hb | hb
    · refine ⟨_, if_pos (abs_gt_infRep_iff.2 hb), ?_⟩
      rw [Format.datum_nan hb, Datum.mul_nan]
      exact delivers_quiet hb
    · have hnanB : ¬ (b &&& P.absMask > P.infRep) := by rw [abs_gt_infRep_iff]; omega
      rw [if_neg hnanB, abs_eq_infRep_iff.2 hb, if_pos rfl, datum_eq_inf hb, Datum.mul]
      by_cases hzero : P.format.value a.toNat = 0
      · rw [if_neg (not_not.2 (value_eq_zero_iff_abs.1 hzero)), if_pos hzero]
        exact ⟨_, rfl, delivers_qnan⟩
      · rw [if_pos (mt value_eq_zero_iff_abs.2 hzero), if_neg hzero]
        exact ⟨_, rfl, delivers_inf _⟩
    · exact absurd ⟨ha, hb⟩ h

/-- `__mulXf3__` delivers the product of any two words. -/
theorem mulXf3_delivers (a b : P.Rep) :
    ∃ r : P.Rep, mulXf3 a b = .ok r ∧
      P.format.Delivers ((P.format.datum a.toNat).mul (P.format.datum b.toNat)) r.toNat := by
  by_cases h : P.format.IsFinite a.toNat ∧ P.format.IsFinite b.toNat
  · rw [datum_eq_finite h.1, datum_eq_finite h.2, Datum.mul]
    by_cases hproduct : P.format.value a.toNat * P.format.value b.toNat = 0
    · have hunits : P.format.units a.toNat * P.format.units b.toNat = 0 := by
        rwa [mul_eq_zero, Format.value_eq_zero_iff, Format.value_eq_zero_iff, ← mul_eq_zero]
          at hproduct
      obtain ⟨r, hr, hrNat⟩ := mulXf3_ok h.1 h.2
      refine ⟨r, hr, ?_⟩
      rw [if_pos hproduct]
      rw [hunits, Int.natAbs_zero, roundPattern_zero] at hrNat
      exact hrNat
    · rw [if_neg hproduct]
      refine mulXf3_roundsTo h.1 h.2 fun hunits => hproduct ?_
      rwa [mul_eq_zero, Format.value_eq_zero_iff, Format.value_eq_zero_iff, ← mul_eq_zero]
  · obtain ⟨r, hr, hdelivers⟩ := mulSpecialOperands_delivers h
    exact ⟨r, by rw [mulXf3, hr]; rfl, hdelivers⟩

/-! ## Division -/

/-- The branch for infinite and NaN operands, and for a divisor of zero. -/
theorem divSpecialOperands_delivers {a b : P.Rep}
    (h : ¬ (P.format.IsFinite a.toNat ∧ P.format.IsFinite b.toNat) ∨
      P.format.value b.toNat = 0) :
    ∃ r : P.Rep, divSpecialOperands a b = some r ∧
      P.format.Delivers ((P.format.datum a.toNat).div (P.format.datum b.toNat)) r.toNat := by
  have hspecial : hasSpecialExponent a b := by
    rcases h with h | h
    · exact hasSpecialExponent_of_nonfinite h
    · refine hasSpecialExponent_of_denormal (Or.inr ?_)
      rw [Format.value_eq_zero_iff, Format.units_eq_zero_iff] at h
      rw [exponentField_toNat, h, Nat.zero_div]
  unfold divSpecialOperands
  simp only [if_pos hspecial, productSign_eq]
  rcases Format.word_cases (toNat_lt a) with ha | ha | ha
  · refine ⟨_, if_pos (abs_gt_infRep_iff.2 ha), ?_⟩
    rw [Format.datum_nan ha, Datum.nan_div]
    exact delivers_quiet ha
  · have hnan : ¬ (a &&& P.absMask > P.infRep) := by rw [abs_gt_infRep_iff]; omega
    rw [if_neg hnan, datum_eq_inf ha]
    rcases Format.word_cases (toNat_lt b) with hb | hb | hb
    · refine ⟨_, if_pos (abs_gt_infRep_iff.2 hb), ?_⟩
      rw [Format.datum_nan hb, Datum.div_nan]
      exact delivers_quiet hb
    · have hnanB : ¬ (b &&& P.absMask > P.infRep) := by rw [abs_gt_infRep_iff]; omega
      rw [if_neg hnanB, if_pos (abs_eq_infRep_iff.2 ha), if_pos (abs_eq_infRep_iff.2 hb),
        datum_eq_inf hb, Datum.div]
      exact ⟨_, rfl, delivers_qnan⟩
    · rw [if_neg (not_abs_gt_infRep hb), abs_eq_infRep_iff.2 ha, if_pos rfl,
        if_neg (abs_ne_infRep hb), datum_eq_finite hb, Datum.div]
      exact ⟨_, rfl, delivers_inf _⟩
  · rw [if_neg (not_abs_gt_infRep ha), if_neg (abs_ne_infRep ha), datum_eq_finite ha]
    rcases Format.word_cases (toNat_lt b) with hb | hb | hb
    · refine ⟨_, if_pos (abs_gt_infRep_iff.2 hb), ?_⟩
      rw [Format.datum_nan hb, Datum.div_nan]
      exact delivers_quiet hb
    · have hnanB : ¬ (b &&& P.absMask > P.infRep) := by rw [abs_gt_infRep_iff]; omega
      rw [if_neg hnanB, if_pos (abs_eq_infRep_iff.2 hb), datum_eq_inf hb, Datum.div]
      exact ⟨_, rfl, delivers_zero _⟩
    · have hzero := h.resolve_left (not_not.2 ⟨ha, hb⟩)
      rw [if_neg (not_abs_gt_infRep hb), if_neg (abs_ne_infRep hb), datum_eq_finite hb, Datum.div,
        if_pos hzero]
      have habs := value_eq_zero_iff_abs.1 hzero
      by_cases hzeroA : P.format.value a.toNat = 0
      · rw [if_pos (value_eq_zero_iff_abs.1 hzeroA), if_pos habs, if_pos hzeroA]
        exact ⟨_, rfl, delivers_qnan⟩
      · rw [if_neg (mt value_eq_zero_iff_abs.2 hzeroA), if_pos habs, if_neg hzeroA]
        exact ⟨_, rfl, delivers_inf _⟩

/-- A zero dividend gives the zero of the product of the signs. -/
theorem divXf3_zero {a b : P.Rep} (ha : P.format.IsFinite a.toNat)
    (hb : P.format.IsFinite b.toNat) (hanz : P.format.value a.toNat = 0)
    (hbnz : P.format.value b.toNat ≠ 0) :
    ∃ r : P.Rep, divXf3 a b = .ok r ∧
      P.format.Delivers (.zero (isNegative a ^^ isNegative b)) r.toNat := by
  rw [Format.value_eq_zero_iff, Format.units_eq_zero_iff] at hanz
  rw [ne_eq, Format.value_eq_zero_iff, Format.units_eq_zero_iff] at hbnz
  refine ⟨_, ?_, delivers_zero _⟩
  rw [divXf3, divSpecialOperands_of_finite ha hb hbnz, if_pos hanz, productSign_eq]
  rfl

/-- `__divXf3__` delivers the quotient of any two words. -/
theorem divXf3_delivers (a b : P.Rep) :
    ∃ r : P.Rep, divXf3 a b = .ok r ∧
      P.format.Delivers ((P.format.datum a.toNat).div (P.format.datum b.toNat)) r.toNat := by
  by_cases h : ¬ (P.format.IsFinite a.toNat ∧ P.format.IsFinite b.toNat) ∨
      P.format.value b.toNat = 0
  · obtain ⟨r, hr, hdelivers⟩ := divSpecialOperands_delivers h
    exact ⟨r, by rw [divXf3, hr]; rfl, hdelivers⟩
  · rw [not_or, not_not] at h
    obtain ⟨⟨ha, hb⟩, hbnz⟩ := h
    rw [datum_eq_finite ha, datum_eq_finite hb, Datum.div, if_neg hbnz]
    by_cases hanz : P.format.value a.toNat = 0
    · rw [if_pos hanz]
      exact divXf3_zero ha hb hanz hbnz
    · rw [if_neg hanz]
      exact divXf3_roundsTo ha hb (mt Format.value_eq_zero_iff.2 hanz)
        (mt Format.value_eq_zero_iff.2 hbnz)

end Cheesecloth.Builtins.SoftFloat
