import Cheesecloth.Builtins.FloatConv.Soft

/-!
# The single-precision conversions against the routines they replace

`floatdisf.c` and `floatundisf.c` round by hand, with a sticky bit at a place
that depends on the width of the argument.  The x86_64 routines that they
replace leave the rounding to `cvtsi2ss`, and fold one bit of an argument from
`2^63` on.

* `Sse.Rounds` is what is assumed of the two instructions.
* `integerWord_double` is why folding one bit is enough: an argument from
  `2^63` on drops forty bits, so its word is the word of the folded half with
  the exponent one higher.
* `softSse` runs the instructions on this library's own routines and meets the
  assumption (`softSse_rounds`).
* `floatdisf_eq_replaced` is the equality of both pairs of routines on every
  argument.
-/

namespace Cheesecloth.Builtins.FloatConv

open CodeLib CodeLib.Checked SoftFloat

/-! ## The instructions -/

/-- `cvtsi2ss` rounds the signed integer to nearest, ties to even, and `mulss`
by `2.0` is exact on what it returns. -/
structure Sse.Rounds (cpu : Sse) : Prop where
  cvtsi2ss_rounds : ∀ a : BitVec 64,
    Precision.single.format.RoundsTo (a.toInt : ℚ) (cpu.cvtsi2ss a).toNat
  mulss_exact : ∀ a : BitVec 64,
    Precision.single.format.IsDouble (cpu.cvtsi2ss a).toNat
      (cpu.mulss (cpu.cvtsi2ss a) two).toNat

/-- The converted integer is its rounded word. -/
theorem Sse.Rounds.cvtsi2ss_toNat {cpu : Sse} (hcpu : cpu.Rounds) (a : BitVec 64) :
    (cpu.cvtsi2ss a).toNat = integerWord .single a.toInt :=
  (hcpu.cvtsi2ss_rounds a).unique (integerWord_roundsTo .single a.toInt)

/-! ## Words of 64-bit integers -/

theorem integerWord_natCast (P : Precision) (n : Nat) :
    integerWord P n = min (roundPattern P.significandBits 0 (n * 2 ^ P.format.scale))
      P.format.infPattern := by
  rw [integerWord, decide_eq_false (by omega), Int.natAbs_natCast, Format.pack]
  simp

/-- The pattern of a nonzero integer of 64 bits is a normal one, with room for
another step of the exponent. -/
theorem integerWord_bounds {v : Int} (hpos : 0 < v.natAbs) (hlt : v.natAbs < 2 ^ 64) :
    2 ^ Precision.single.format.significandBits ≤
        integerWord .single v % Precision.single.format.signBit ∧
      integerWord .single v % Precision.single.format.signBit +
          2 ^ Precision.single.format.significandBits <
        Precision.single.format.infPattern := by
  have hlog : v.natAbs.log2 < 64 := (Nat.log2_lt (Nat.ne_of_gt hpos)).2 hlt
  have hpattern := roundPattern_natural (p := Precision.single.significandBits)
    (c := Precision.single.format.scale) hpos (by decide)
  have hbounds := roundLead_bounds (p := Precision.single.significandBits) hpos
  have hmax : Precision.single.maxExponent = 255 := rfl
  have hscale : Precision.single.format.scale = 149 := rfl
  have hbits : Precision.single.significandBits = 23 := rfl
  rw [hbits] at hbounds hpattern
  rw [hscale] at hpattern
  rw [integerWord, Format.pack_mod_signBit, Precision.format_infPattern, hmax,
    Precision.format_significandBits, hscale, hbits, hpattern]
  omega

theorem integerWord_step {P : Precision} {m n : Nat}
    (hstep : roundPattern P.significandBits 0 (n * 2 ^ P.format.scale) =
      roundPattern P.significandBits 0 (m * 2 ^ P.format.scale) + 2 ^ P.significandBits)
    (hfit : integerWord P m % P.format.signBit + 2 ^ P.format.significandBits <
      P.format.infPattern) :
    integerWord P n = integerWord P m + 2 ^ P.format.significandBits := by
  have hpow := Nat.two_pow_pos P.significandBits
  have hinf := Format.infPattern_lt_signBit (f := P.format)
  rw [P.format_significandBits] at hfit ⊢
  rw [integerWord_natCast] at hfit
  rw [Nat.mod_eq_of_lt (by omega)] at hfit
  rw [integerWord_natCast, integerWord_natCast, hstep]
  omega

/-- The word of an integer from `2^63` on is twice the word of its half with
the dropped bit folded in. -/
theorem integerWord_double {n : Nat} (hge : 2 ^ 63 ≤ n) (hlt : n < 2 ^ 64) :
    Precision.single.format.IsDouble (integerWord .single (stickyShift n 1 : Nat))
      (integerWord .single n) := by
  have hlog : n.log2 = 63 := (Nat.log2_eq_iff (by omega)).2 ⟨hge, hlt⟩
  have hhalf := le_stickyShift n 1
  have hhalfLt := stickyShift_lt (n := n) (k := 1) (m := 63) (by omega) hlt
  obtain ⟨hnormal, hfit⟩ := integerWord_bounds (v := (stickyShift n 1 : Nat)) (by omega) (by omega)
  have hstep := roundPattern_stickyShift (p := Precision.single.significandBits)
    (c := Precision.single.format.scale) (n := n) (by decide) (by rw [hlog]; decide)
  rw [integerWord_step hstep hfit]
  exact Format.isDouble_add (integerWord_lt .single _) hnormal hfit

/-- The folded half, `(a >> 1) | (a & 1)`. -/
theorem folded_toNat (a : BitVec 64) :
    ((a &&& 1#64) ||| a >>> 1).toNat = stickyShift a.toNat 1 := by
  have hlow : (a &&& 1#64).toNat = a.toNat % 2 := Bits.toNat_and_lowMask (k := 1) rfl
  rw [BitVec.toNat_or, hlow, Bits.toNat_shiftRight, stickyShift, Nat.pow_one, Nat.or_comm]
  split_ifs with heven
  · rw [heven, Nat.or_zero]
  · rw [show a.toNat % 2 = 1 by omega, Bits.or_one_eq]

/-! ## The instructions on this library's routines -/

/-- The product of a normal word by two is one step of the exponent. -/
theorem mulXf3_two {P : Precision} {x t : P.Rep} (ht : P.format.IsFinite t.toNat)
    (htwo : P.format.units t.toNat = 2 * 2 ^ P.format.scale)
    (hnormal : 2 ^ P.significandBits ≤ x.toNat % P.format.signBit)
    (hfit : x.toNat % P.format.signBit + 2 ^ P.significandBits < P.format.infPattern) :
    ∃ r : P.Rep, mulXf3 x t = .ok r ∧ r.toNat = x.toNat + 2 ^ P.significandBits := by
  have hx := toNat_lt x
  obtain ⟨r, hr, hrNat⟩ := mulXf3_ok (a := x)
    ⟨hx, Nat.lt_of_le_of_lt (Nat.le_add_right _ _) hfit⟩ ht
  refine ⟨r, hr, ?_⟩
  have hsign : isNegative t = false := by
    rw [isNegative, decide_eq_false_iff_not]
    intro hge
    rw [Format.units, if_neg (by omega)] at htwo
    have hpow : (0 : Int) < 2 ^ P.format.scale := by positivity
    omega
  have hvalue : (P.format.units x.toNat * P.format.units t.toNat).natAbs =
      magnitude P.significandBits (x.toNat % P.format.signBit + 2 ^ P.significandBits) *
        2 ^ P.format.scale := by
    rw [htwo, magnitude_add_two_pow hnormal, Int.natAbs_mul, Format.natAbs_units, Int.natAbs_mul,
      Int.natAbs_pow, P.format_significandBits]
    simp only [Int.reduceAbs]
    ring
  have hround := roundPattern_mul_two_pow P.significandBits 0
    (magnitude P.significandBits (x.toNat % P.format.signBit + 2 ^ P.significandBits))
    P.format.scale
  rw [Nat.zero_add, roundPattern_magnitude] at hround
  rw [hrNat, hvalue, hround, hsign, Bool.xor_false, Format.pack,
    Nat.min_eq_left (Nat.le_of_lt hfit), isNegative]
  simp only [decide_eq_true_eq]
  split_ifs with h
  · rw [Nat.mod_eq_sub_mod h, Nat.mod_eq_of_lt (by omega)]
    omega
  · rw [Nat.mod_eq_of_lt (by omega), Nat.zero_add]

/-- `__mulsf3`. -/
def mulsf3 (a b : BitVec 32) : Checked (BitVec 32) := mulXf3 (P := .single) a b

/-- `cvtsi2ss` by `__floatdisf` and `mulss` by `__mulsf3`. -/
def softSse : Sse where
  cvtsi2ss a := (floatdisf a).toOption.getD 0#32
  mulss a b := (mulsf3 a b).toOption.getD 0#32

theorem softSse_cvtsi2ss_toNat (a : BitVec 64) :
    (softSse.cvtsi2ss a).toNat = integerWord .single a.toInt := by
  obtain ⟨r, hr, hrNat⟩ := floatdisf_ok a
  change ((floatdisf a).toOption.getD 0#32).toNat = _
  rw [hr]
  exact hrNat

theorem two_isFinite : Precision.single.format.IsFinite two.toNat := ⟨by decide, by decide⟩

theorem two_units : Precision.single.format.units two.toNat =
    2 * 2 ^ Precision.single.format.scale := by
  decide

theorem mulsf3_zero_two : mulsf3 0#32 two = .ok 0#32 := by
  rfl

theorem softSse_rounds : softSse.Rounds where
  cvtsi2ss_rounds a := by
    rw [softSse_cvtsi2ss_toNat]
    exact integerWord_roundsTo .single a.toInt
  mulss_exact a := by
    have hle := a.le_toInt
    have hlt := a.toInt_lt
    have hx := softSse_cvtsi2ss_toNat a
    rcases Nat.eq_zero_or_pos a.toInt.natAbs with hzero | hpos
    · rw [Int.natAbs_eq_zero.1 hzero, integerWord_zero] at hx
      rw [show softSse.cvtsi2ss a = 0#32 from BitVec.eq_of_toNat_eq hx]
      have hmulss : softSse.mulss 0#32 two = 0#32 := by
        change (mulsf3 0#32 two).toOption.getD 0#32 = _
        rw [mulsf3_zero_two]
        rfl
      rw [hmulss]
      exact ⟨⟨by decide, by decide⟩, Iff.rfl, by simp [Format.value, Format.units]⟩
    · obtain ⟨hnormal, hfit⟩ := integerWord_bounds hpos (by omega)
      rw [← hx] at hnormal hfit
      generalize softSse.cvtsi2ss a = x at *
      obtain ⟨r, hr, hrNat⟩ := mulXf3_two (P := .single) (x := x) two_isFinite two_units
        hnormal hfit
      have hmulss : softSse.mulss x two = r := by
        change ((mulsf3 x two).toOption.getD 0#32) = r
        rw [show mulsf3 x two = .ok r from hr]
        rfl
      rw [hmulss]
      exact hrNat ▸ Format.isDouble_add (toNat_lt (P := .single) x) hnormal hfit

/-! ## The two pairs of routines -/

/-- The generic routines return what the replaced routines return. -/
theorem floatdisf_eq_replaced (cpu : Sse) (hcpu : cpu.Rounds) :
    (∀ a : BitVec 64, floatdisf a = .ok (replacedFloatdisf cpu a)) ∧
    (∀ a : BitVec 64, floatundisf a = .ok (replacedFloatundisf cpu a)) := by
  constructor
  · intro a
    obtain ⟨r, hr, hrNat⟩ := floatdisf_ok a
    rw [hr, replacedFloatdisf]
    exact congrArg _ (BitVec.eq_of_toNat_eq (hrNat.trans (hcpu.cvtsi2ss_toNat a).symm))
  · intro a
    obtain ⟨r, hr, hrNat⟩ := floatundisf_ok a
    have hlt := a.isLt
    rw [hr]
    refine congrArg _ (BitVec.eq_of_toNat_eq ?_)
    unfold replacedFloatundisf
    dsimp only
    split_ifs with hmsb
    · rw [BitVec.msb_eq_decide, decide_eq_true_iff] at hmsb
      have hhalf := stickyShift_lt (n := a.toNat) (k := 1) (m := 63) (by omega) hlt
      have hexact := hcpu.mulss_exact ((a &&& 1#64) ||| a >>> 1)
      rw [hcpu.cvtsi2ss_toNat, BitVec.toInt_eq_toNat_of_lt (by rw [folded_toNat]; omega),
        folded_toNat] at hexact
      rw [hrNat]
      exact (integerWord_double hmsb hlt).unique hexact
    · rw [hrNat, hcpu.cvtsi2ss_toNat, BitVec.toInt_eq_toNat_of_msb (by simpa using hmsb)]

theorem floatdisf_eq_replaced_softSse :
    softSse.Rounds ∧ floatundisf 0xffffff8000000001#64 =
      .ok (replacedFloatundisf softSse 0xffffff8000000001#64) :=
  ⟨softSse_rounds, (floatdisf_eq_replaced softSse softSse_rounds).2 _⟩

end Cheesecloth.Builtins.FloatConv
