import Cheesecloth.Builtins.FloatConv.Soft

/-!
# The double-precision conversions without floating-point hardware

The bodies of `__floatdidf` and `__floatundidf` for hardware floating point
put the halves of the argument into doubles, subtract the powers of two that
carried them, and add.  Every operation but the last is exact, and the last
rounds once.  Run over the soft-float routines they therefore agree with the
integer-only bodies on every argument.

* `IsInteger`: a word that holds an integer exactly.
* `addXf3_integer` and `mulXf3_integer`: a sum and a product of such words is
  the rounded integer.  `IsInteger.of_exact` says when it is exact.
* `floatdidf_ok` and `floatundidf_ok`: the two bodies.
* `floatdidf_eq_soft`: the agreement with the integer-only bodies.
-/

namespace Cheesecloth.Builtins.FloatConv

open CodeLib CodeLib.Checked SoftFloat

/-! ## Integers in words -/

section Integers

variable {P : Precision}

/-- `a` holds the integer `v` exactly, and holds zero as `+0`. -/
structure IsInteger (a : P.Rep) (v : Int) : Prop where
  finite : P.format.IsFinite a.toNat
  sign : isNegative a = decide (v < 0)
  units : P.format.units a.toNat = v * 2 ^ P.format.scale

namespace IsInteger

variable {a b : P.Rep} {u v : Int}

/-- An integer of few bits is held by its rounded word. -/
theorem of_exact {c k : Nat} (ha : a.toNat = integerWord P v) (hv : v.natAbs = c * 2 ^ k)
    (hc : c < 2 ^ (P.significandBits + 1)) (hlt : v.natAbs < 2 ^ P.format.bias) :
    IsInteger a v := by
  have habs : (v * 2 ^ P.format.scale).natAbs = v.natAbs * 2 ^ P.format.scale := by
    rw [Int.natAbs_mul, Int.natAbs_pow]
    rfl
  have hscaled : (v * 2 ^ P.format.scale).natAbs = c * 2 ^ (k + P.format.scale) := by
    rw [habs, hv, Nat.pow_add, Nat.mul_assoc]
  have hbound : (v * 2 ^ P.format.scale).natAbs <
      2 ^ (P.format.significandBits + 2 * P.format.bias) := by
    have hle : 2 ^ (P.format.bias + P.format.scale) ≤
        2 ^ (P.format.significandBits + 2 * P.format.bias) :=
      Nat.pow_le_pow_right (by decide) (by unfold Format.scale; omega)
    rw [habs]
    refine Nat.lt_of_lt_of_le ?_ hle
    rw [Nat.pow_add]
    exact Nat.mul_lt_mul_of_pos_right hlt (Nat.two_pow_pos _)
  obtain ⟨hfinite, hunits⟩ := Format.pack_exact hscaled hc hbound
  rw [P.format_significandBits, pack_units_eq_integerWord, ← ha] at hfinite hunits
  refine ⟨hfinite, ?_, hunits⟩
  unfold isNegative
  rw [ha, integerWord, decide_eq_decide, Format.signBit_le_pack, decide_eq_true_iff]

/-- The word with significand `s` and exponent `k`. -/
theorem of_fields (negative : Bool) {k s n : Nat}
    (ha : a.toNat = (if negative then P.format.signBit else 0) + (k * 2 ^ P.significandBits + s))
    (hge : 2 ^ P.significandBits ≤ s) (hlt : s < 2 ^ (P.significandBits + 1))
    (hk : k + 2 ≤ P.maxExponent) (hn : s * 2 ^ k = n * 2 ^ P.format.scale) :
    IsInteger a (if negative then -(n : Int) else n) := by
  have hpow := Nat.two_pow_pos P.significandBits
  have hinf := Format.infPattern_lt_signBit (f := P.format)
  have hmagnitude := magnitude_parts (k := k) (Or.inr hge) (Nat.le_of_lt hlt)
  have hpattern : k * 2 ^ P.significandBits + s < P.format.infPattern := by
    have hle : (k + 2) * 2 ^ P.significandBits ≤ P.maxExponent * 2 ^ P.significandBits :=
      Nat.mul_le_mul_right _ hk
    rw [Nat.add_mul] at hle
    rw [Nat.pow_succ] at hlt
    rw [P.format_infPattern]
    omega
  have hnpos : 0 < n := by
    apply Nat.pos_of_ne_zero
    rintro rfl
    rw [Nat.zero_mul, Nat.mul_eq_zero] at hn
    have := Nat.two_pow_pos k
    omega
  rw [hn] at hmagnitude
  generalize k * 2 ^ P.significandBits + s = m at *
  have hword : a.toNat = P.format.pack negative m := by
    rw [ha, Format.pack, Nat.min_eq_left (Nat.le_of_lt hpattern)]
  have hmod : a.toNat % P.format.signBit = m := by
    rw [hword, Format.pack_mod_signBit, Nat.min_eq_left (Nat.le_of_lt hpattern)]
  have hnegative : isNegative a = negative := by
    unfold isNegative
    rw [hword]
    simp only [Format.signBit_le_pack, Bool.decide_eq_true]
  refine ⟨⟨hword ▸ Format.pack_lt _ _ _, hmod.symm ▸ hpattern⟩, ?_, ?_⟩
  · rw [hnegative]
    cases negative <;> simp
    omega
  · rw [units_eq, hnegative, hmod, hmagnitude]
    cases negative <;> simp

/-- Only a negative integer has the sign bit set. -/
theorem ne_signBit (ha : IsInteger a v) : a ≠ P.signBit := by
  rintro rfl
  have hmod : P.signBit.toNat % P.format.signBit = 0 := by
    rw [P.signBit_toNat, P.format_signBit, Nat.mod_self]
  have hunits := ha.units
  have hsign := ha.sign
  rw [units_of_zero hmod, eq_comm, Int.mul_eq_zero] at hunits
  rcases hunits with rfl | h
  · unfold isNegative at hsign
    rw [P.signBit_toNat, P.format_signBit] at hsign
    simp at hsign
  · exact absurd h (by positivity)

end IsInteger

/-- The sum of two integers, rounded. -/
theorem addXf3_integer {a b : P.Rep} {u v : Int} (ha : IsInteger a u) (hb : IsInteger b v) :
    ∃ r : P.Rep, addXf3 a b = .ok r ∧ r.toNat = integerWord P (u + v) := by
  obtain ⟨r, hr, hrNat⟩ := addXf3_ok ha.finite hb.finite fun h => ha.ne_signBit h.1
  refine ⟨r, hr, ?_⟩
  rw [hrNat, ha.units, hb.units, ← Int.add_mul, pack_units_eq_integerWord]

/-- The product of an integer and a positive one, rounded. -/
theorem mulXf3_integer {a b : P.Rep} {u v : Int} (ha : IsInteger a u) (hb : IsInteger b v)
    (hpos : 0 < v) : ∃ r : P.Rep, mulXf3 a b = .ok r ∧ r.toNat = integerWord P (u * v) := by
  obtain ⟨r, hr, hrNat⟩ := mulXf3_ok ha.finite hb.finite
  have hsign : (isNegative a ^^ isNegative b) = decide (u * v < 0) := by
    rw [ha.sign, hb.sign, decide_eq_false (by omega : ¬ v < 0), Bool.xor_false, decide_eq_decide]
    exact (mul_lt_zero_iff_of_pos hpos).symm
  have hvalue : (u * 2 ^ P.format.scale * (v * 2 ^ P.format.scale)).natAbs =
      (u * v).natAbs * 2 ^ P.format.scale * 2 ^ P.format.scale := by
    simp only [Int.natAbs_mul, Int.natAbs_pow, Int.reduceAbs]
    ring
  have hround := roundPattern_mul_two_pow P.significandBits 0
    ((u * v).natAbs * 2 ^ P.format.scale) P.format.scale
  rw [Nat.zero_add] at hround
  refine ⟨r, hr, ?_⟩
  rw [hrNat, hsign, ha.units, hb.units, hvalue, hround, integerWord]

end Integers

/-! ## The 32-bit conversion -/

/-- A significand with its leading bit taken off, under the exponent field. -/
theorem fields64_toNat {x m e : BitVec 64} {k : Nat} (hm : m.toNat = 2 ^ 52)
    (hge : 2 ^ 52 ≤ x.toNat) (hlt : x.toNat < 2 ^ (52 + 1)) (hk : k + 3 < 2 ^ 12)
    (he : e.toNat = k + 1) : ((x ^^^ m) + e <<< 52).toNat = k * 2 ^ 52 + x.toNat := by
  rw [BitVec.toNat_add, Bits.toNat_xor_lead hm hge hlt, Bits.toNat_shiftLeft_of_lt (by omega), he,
    Nat.mod_eq_of_lt] <;> omega

theorem or_sign64_toNat {x s : BitVec 64} {n : Nat} {negative : Bool}
    (hs : s = if negative then Precision.double.signBit else 0#64) (hx : x.toNat = n)
    (hn : n < 2 ^ 63) :
    (x ||| s).toNat = (if negative then Precision.double.format.signBit else 0) + n := by
  subst hx hs
  exact or_sign_toNat (P := .double) negative hn

/-- An absolute value of 32 bits fits the significand, so it is shifted into
place without rounding. -/
theorem floatsidfAbs_ok (negative : Bool) {a : BitVec 32} (ha : 0 < a.toNat) :
    ∃ r : BitVec 64, floatsidfAbs (if negative then Precision.double.signBit else 0#64) a = .ok r ∧
      IsInteger (P := .double) r (if negative then -(a.toNat : Int) else a.toNat) := by
  have hlog : a.toNat.log2 < 32 := (Nat.log2_lt (Nat.ne_of_gt ha)).2 a.isLt
  obtain ⟨hge, hlt⟩ := lead_bit ha (show a.toNat.log2 ≤ 52 by omega)
  have hclz := clz_ok ha (show 31 - a.toNat.log2 + a.toNat.log2 + 1 = 32 by omega)
  have hexp : (32 : Int) - 1 - ((31 - a.toNat.log2 : Nat) : Int) = a.toNat.log2 := by omega
  have hshift : (Precision.double.significandBits : Int) - a.toNat.log2 =
      ((52 - a.toNat.log2 : Nat) : Int) := by
    change (52 : Int) - _ = _
    omega
  have hwide : (a.setWidth 64).toNat = a.toNat := by
    rw [BitVec.toNat_setWidth, Nat.mod_eq_of_lt (by have := a.isLt; omega)]
  have hlead : (a.setWidth 64 <<< (52 - a.toNat.log2)).toNat =
      a.toNat * 2 ^ (52 - a.toNat.log2) := by
    rw [Bits.toNat_shiftLeft_of_lt, hwide]
    rw [hwide]
    omega
  have hbias : (BitVec.ofInt 64 (a.toNat.log2 + Precision.double.exponentBias)).toNat =
      a.toNat.log2 + 1022 + 1 := by
    change (BitVec.ofInt 64 ((a.toNat.log2 : Int) + (1023 : Nat))).toNat = _
    rw [← Int.natCast_add, BitVec.ofInt_natCast, BitVec.toNat_ofNat, Nat.mod_eq_of_lt (by omega)]
  have hword := fields64_toNat (m := Precision.double.implicitBit) (k := a.toNat.log2 + 1022)
    rfl (by rwa [hlead]) (by rwa [hlead]) (by omega) hbias
  rw [hlead] at hword
  have hbound : (a.toNat.log2 + 1022) * 2 ^ 52 + a.toNat * 2 ^ (52 - a.toNat.log2) < 2 ^ 63 := by
    omega
  have hscale : 52 - a.toNat.log2 + (a.toNat.log2 + 1022) = Precision.double.format.scale := by
    change _ = 1074
    omega
  refine ⟨_, ?_, IsInteger.of_fields (P := .double) negative
    (or_sign64_toNat rfl hword hbound) hge hlt ?_ ?_⟩
  · unfold floatsidfAbs
    rw [hclz, ok_bind, hexp]
    dsimp only
    rw [hshift, shl_ok _ rfl (by omega)]
    rfl
  · change a.toNat.log2 + 1022 + 2 ≤ 2047
    omega
  · rw [Nat.mul_assoc, ← Nat.pow_add, hscale]

/-- `__floatsidf` is exact. -/
theorem floatsidf_ok (a : BitVec 32) :
    ∃ r : BitVec 64, floatsidf a = .ok r ∧ IsInteger (P := .double) r a.toInt := by
  have hlt := a.isLt
  have hslt : a.slt 0#32 = decide (a.toInt < 0) := by
    rw [BitVec.slt_eq_decide, BitVec.toInt_zero]
  have hcond := BitVec.toInt_eq_toNat_cond a
  unfold floatsidf
  split_ifs with hzero hneg
  · refine ⟨0#64, rfl, ?_⟩
    rw [hzero]
    exact ⟨⟨by decide, by decide⟩, by decide, by simp [Format.units]⟩
  · rw [hslt, decide_eq_true_iff] at hneg
    rw [if_neg (by intro h; rw [if_pos h] at hcond; omega)] at hcond
    have hpos : 0 < a.toNat := Nat.pos_of_ne_zero fun h => hzero (BitVec.eq_of_toNat_eq h)
    have hNat : (-a).toNat = 2 ^ 32 - a.toNat := by
      rw [BitVec.toNat_neg]
      omega
    have hint : a.toInt = -((-a).toNat : Int) := by
      rw [hNat, hcond]
      push_cast
      omega
    rw [hint]
    exact floatsidfAbs_ok true (by omega)
  · rw [hslt, decide_eq_true_iff] at hneg
    rw [if_pos (by by_contra h; rw [if_neg h] at hcond; push_cast at hcond; omega)] at hcond
    rw [hcond]
    exact floatsidfAbs_ok false (Nat.pos_of_ne_zero fun h => hzero (BitVec.eq_of_toNat_eq h))

/-! ## The two bodies -/

theorem adddf3_integer {a b : BitVec 64} {u v : Int} (ha : IsInteger (P := .double) a u)
    (hb : IsInteger (P := .double) b v) :
    ∃ r : BitVec 64, adddf3 a b = .ok r ∧ r.toNat = integerWord .double (u + v) :=
  addXf3_integer ha hb

theorem subdf3_integer {a b : BitVec 64} {u v : Int} (ha : IsInteger (P := .double) a u)
    (hb : IsInteger (P := .double) (b ^^^ 0x8000000000000000#64) (-v)) :
    ∃ r : BitVec 64, subdf3 a b = .ok r ∧ r.toNat = integerWord .double (u - v) :=
  Int.sub_eq_add_neg (a := u) ▸ addXf3_integer ha hb

theorem muldf3_integer {a b : BitVec 64} {u v : Int} (ha : IsInteger (P := .double) a u)
    (hb : IsInteger (P := .double) b v) (hpos : 0 < v) :
    ∃ r : BitVec 64, muldf3 a b = .ok r ∧ r.toNat = integerWord .double (u * v) :=
  mulXf3_integer ha hb hpos

/-- The word with significand `s` whose last place is worth `2^j`. -/
theorem isInteger_word (negative : Bool) {x : BitVec 64} {s : Nat} (j : Nat)
    (hx : x.toNat = (if negative then 2 ^ 63 else 0) + ((j + 1074) * 2 ^ 52 + s))
    (hge : 2 ^ 52 ≤ s) (hlt : s < 2 ^ 53) (hj : j < 900) :
    IsInteger (P := .double) x
      (if negative then -((s * 2 ^ j : Nat) : Int) else (s * 2 ^ j : Nat)) := by
  refine IsInteger.of_fields (P := .double) (k := j + Precision.double.format.scale) negative hx
    hge hlt ?_ ?_
  · change j + 1074 + 2 ≤ 2047
    omega
  · rw [Nat.pow_add, Nat.mul_assoc]

theorem twop32_isInteger : IsInteger (P := .double) twop32 (2 ^ 32) := by
  have hexponent : 52 + 1054 = 32 + Precision.double.format.scale := rfl
  refine IsInteger.of_fields (P := .double) (k := 1054) (s := 2 ^ 52) (n := 2 ^ 32) false
    (by decide) (by decide) (by decide) (by decide) ?_
  rw [← Nat.pow_add, ← Nat.pow_add, hexponent]

theorem twop52_neg_isInteger :
    IsInteger (P := .double) (twop52 ^^^ 0x8000000000000000#64) (-2 ^ 52) :=
  isInteger_word true (s := 2 ^ 52) 0 (by decide) (by decide) (by decide) (by decide)

theorem twop84PlusTwop52_neg_isInteger :
    IsInteger (P := .double) (twop84PlusTwop52 ^^^ 0x8000000000000000#64) (-(2 ^ 84 + 2 ^ 52)) :=
  isInteger_word true (s := 2 ^ 52 + 2 ^ 20) 32 (by decide) (by decide) (by decide) (by decide)

theorem twop84_or_isInteger {x : BitVec 64} (hx : x.toNat < 2 ^ 32) :
    IsInteger (P := .double) (twop84 ||| x) (2 ^ 84 + x.toNat * 2 ^ 32) := by
  have hor := Bits.toNat_or_disjoint (x := x) (y := twop84) (c := 1107) (k := 52) (by omega) rfl
  have htwop84 : twop84.toNat = 1107 * 2 ^ 52 := rfl
  have hword := isInteger_word false (x := twop84 ||| x) (s := 2 ^ 52 + x.toNat) 32
    (by rw [BitVec.or_comm, hor, htwop84]; simp only [Bool.false_eq_true, if_false]; omega)
    (by omega) (by omega) (by omega)
  convert hword using 1
  push_cast
  ring

theorem twop52_or_isInteger {x : BitVec 64} (hx : x.toNat < 2 ^ 32) :
    IsInteger (P := .double) (twop52 ||| x) (2 ^ 52 + x.toNat) := by
  have hor := Bits.toNat_or_disjoint (x := x) (y := twop52) (c := 1075) (k := 52) (by omega) rfl
  have htwop52 : twop52.toNat = 1075 * 2 ^ 52 := rfl
  have hword := isInteger_word false (x := twop52 ||| x) (s := 2 ^ 52 + x.toNat) 0
    (by rw [BitVec.or_comm, hor, htwop52]; simp only [Bool.false_eq_true, if_false]; omega)
    (by omega) (by omega) (by omega)
  convert hword using 1
  push_cast
  ring

/-- A rounded word whose integer is a small multiple of `2^32` is exact. -/
theorem isInteger_of_multiple {r : BitVec 64} {v d : Int} (hr : r.toNat = integerWord .double v)
    (hv : v = d * 2 ^ 32) (hd : d.natAbs < 2 ^ 53) : IsInteger (P := .double) r v := by
  have habs : v.natAbs = d.natAbs * 2 ^ 32 := by
    rw [hv, Int.natAbs_mul]
    rfl
  refine IsInteger.of_exact (P := .double) hr habs hd ?_
  calc v.natAbs < 2 ^ 85 := by omega
    _ ≤ 2 ^ Precision.double.format.bias := Nat.pow_le_pow_right (by decide) (by decide)

/-- Taking the magic constant off the high word is exact, so the last addition
is the only one that rounds. -/
theorem sub_add_ok {high magic low : BitVec 64} {u v w d : Int}
    (hhigh : IsInteger (P := .double) high u)
    (hmagic : IsInteger (P := .double) (magic ^^^ 0x8000000000000000#64) (-v))
    (hlow : IsInteger (P := .double) low w) (hdiff : u - v = d * 2 ^ 32)
    (hd : d.natAbs < 2 ^ 53) :
    ∃ r : BitVec 64, (do adddf3 (← subdf3 high magic) low) = .ok r ∧
      r.toNat = integerWord .double (u - v + w) := by
  obtain ⟨x, hx, hxNat⟩ := subdf3_integer hhigh hmagic
  obtain ⟨r, hr, hrNat⟩ := adddf3_integer (isInteger_of_multiple hxNat hdiff hd) hlow
  refine ⟨r, ?_, hrNat⟩
  rw [hx, ok_bind, hr]

theorem toNat_low (a : BitVec 64) :
    (a &&& 0x00000000ffffffff#64).toNat = a.toNat % 2 ^ 32 :=
  Bits.toNat_and_lowMask rfl

/-- `(int32_t)(a >> 32)`. -/
theorem toInt_high (a : BitVec 64) :
    ((a.sshiftRight 32).setWidth 32).toInt = a.toInt / 2 ^ 32 := by
  have hle := a.le_toInt
  have hlt := a.toInt_lt
  have hshift : (a.sshiftRight 32).toInt = a.toInt / 2 ^ 32 := by
    rw [BitVec.toInt_sshiftRight, Int.shiftRight_eq_div_pow]
    rfl
  have hcond := BitVec.toInt_eq_toNat_cond (a.sshiftRight 32)
  rw [BitVec.toInt_eq_toNat_cond, BitVec.toNat_setWidth]
  push_cast at hcond ⊢
  split_ifs at hcond ⊢ <;> omega

/-- `__floatdidf` rounds its argument to nearest. -/
theorem floatdidf_ok (a : BitVec 64) :
    ∃ r : BitVec 64, floatdidf a = .ok r ∧ r.toNat = integerWord .double a.toInt := by
  have hlt := a.isLt
  have hlow := toNat_low a
  have hcond := BitVec.toInt_eq_toNat_cond a
  obtain ⟨x, hx, hxInt⟩ := floatsidf_ok ((a.sshiftRight 32).setWidth 32)
  rw [toInt_high] at hxInt
  obtain ⟨high, hhigh, hhighNat⟩ := muldf3_integer hxInt twop32_isInteger (by decide)
  obtain ⟨r, hr, hrNat⟩ := sub_add_ok (d := a.toInt / 2 ^ 32 - 2 ^ 20)
    (isInteger_of_multiple hhighNat rfl (by omega)) twop52_neg_isInteger
    (twop52_or_isInteger (by rw [hlow]; omega)) (by ring) (by omega)
  refine ⟨r, ?_, hrNat.trans (congrArg _ ?_)⟩
  · unfold floatdidf
    rw [hx, ok_bind, hhigh, ok_bind]
    exact hr
  · omega

/-- `__floatundidf` rounds its argument to nearest. -/
theorem floatundidf_ok (a : BitVec 64) :
    ∃ r : BitVec 64, floatundidf a = .ok r ∧ r.toNat = integerWord .double a.toNat := by
  have hlt := a.isLt
  have hlow := toNat_low a
  have hhigh : (a >>> 32).toNat = a.toNat / 2 ^ 32 := Bits.toNat_shiftRight ..
  obtain ⟨r, hr, hrNat⟩ := sub_add_ok (d := a.toNat / 2 ^ 32 - 2 ^ 20)
    (twop84_or_isInteger (x := a >>> 32) (by omega)) twop84PlusTwop52_neg_isInteger
    (twop52_or_isInteger (by rw [hlow]; omega)) (by push_cast [hhigh]; ring) (by omega)
  refine ⟨r, hr, hrNat.trans (congrArg _ ?_)⟩
  rw [hhigh, hlow]
  push_cast
  omega

/-- Over the soft-float routines the bodies for hardware floating point return
what the integer-only bodies return: the argument, rounded to nearest, ties to
even, and `+0` for `0`. -/
theorem floatdidf_eq_soft :
    (∀ a : BitVec 64, ∃ r : BitVec 64,
      floatdidf a = .ok r ∧ floatdidfSoft a = .ok r ∧
        Precision.double.format.RoundsTo (a.toInt : ℚ) r.toNat ∧ (a = 0#64 → r = 0#64)) ∧
    (∀ a : BitVec 64, ∃ r : BitVec 64,
      floatundidf a = .ok r ∧ floatundidfSoft a = .ok r ∧
        Precision.double.format.RoundsTo (a.toNat : ℚ) r.toNat ∧ (a = 0#64 → r = 0#64)) := by
  constructor
  · intro a
    obtain ⟨r, hr, hrNat⟩ := floatdidf_ok a
    obtain ⟨r', hr', hrNat'⟩ := floatdidfSoft_ok a
    obtain rfl : r' = r := BitVec.eq_of_toNat_eq (hrNat'.trans hrNat.symm)
    refine ⟨r', hr, hr', hrNat ▸ integerWord_roundsTo .double a.toInt, ?_⟩
    rintro rfl
    apply BitVec.eq_of_toNat_eq
    rw [hrNat, BitVec.toInt_zero, integerWord_zero, BitVec.toNat_zero]
  · intro a
    obtain ⟨r, hr, hrNat⟩ := floatundidf_ok a
    obtain ⟨r', hr', hrNat'⟩ := floatundidfSoft_ok a
    obtain rfl : r' = r := BitVec.eq_of_toNat_eq (hrNat'.trans hrNat.symm)
    refine ⟨r', hr, hr', hrNat ▸ integerWord_roundsTo .double a.toNat, ?_⟩
    rintro rfl
    apply BitVec.eq_of_toNat_eq
    rw [hrNat, BitVec.toNat_zero, Nat.cast_zero, integerWord_zero]

end Cheesecloth.Builtins.FloatConv
