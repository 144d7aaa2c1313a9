import Cheesecloth.CodeLib.QuotientDigit
import Cheesecloth.Builtins.Udivmodti4.Model

/-!
# The digit correction loops of `udiv128by64to64default`

The two `while` loops run the same correction at two partial dividends.
`correction_run` is the specification of one of them, read off the `Estimate`
invariant of `CodeLib.QuotientDigit` with base `2 ^ 32`.  The loop test
compares wrapped 64-bit expressions; `excess_toNat` shows that under the
invariant neither side wraps, so the test is the exact comparison.

`locals_spec` follows the whole body: the normalised divisor, the first digit,
the partial remainder `un21`, the second digit, and the results.
-/

namespace Cheesecloth.Builtins.Udivmodti4

open CodeLib CodeLib.Checked

/-! ## One loop -/

@[simp] theorem base_toNat : base.toNat = 2 ^ 32 := rfl

/-- The invariant of a correction loop at `vn1`, `vn0` and partial dividend
`u`: the digits of the state are an estimate of the quotient digit. -/
def DigitInv (d : Divisor (2 ^ 32)) (u x n : Nat) (t : Digit) : Prop :=
  Estimate d u x n t.q.toNat t.rhat.toNat

/-- The two sides of the comparison in the loop test are exact integers below
`2 ^ 64`. -/
structure ExactTest (vn0 un : BitVec 64) (t : Digit) : Prop where
  left_lt : t.q.toNat * vn0.toNat < 2 ^ 64
  right_lt : base.toNat * t.rhat.toNat + un.toNat < 2 ^ 64

section Loop

variable {d : Divisor (2 ^ 32)} {vn1 vn0 un : BitVec 64} {u n : Nat} {t : Digit}

/-- When the comparison is evaluated the digit is below the base, and then
neither side wraps. -/
theorem exactTest_of_digitInv (hlo : vn0.toNat = d.lo) (hun : un.toNat < 2 ^ 32)
    (h : DigitInv d u un.toNat n t) (hq : t.q.toNat < 2 ^ 32) : ExactTest vn0 un t where
  left_lt := by
    have hv : vn0.toNat < 2 ^ 32 := hlo ▸ d.lo_lt
    calc t.q.toNat * vn0.toNat < 2 ^ 32 * 2 ^ 32 :=
          Nat.mul_lt_mul'' hq hv
      _ = 2 ^ 64 := by norm_num
  right_lt := by
    have hr : t.rhat.toNat < 2 ^ 32 := h.rhat_lt
    rw [base_toNat]
    omega

/-- The comparison of the loop test, in exact integers. -/
theorem excess_toNat (h : ExactTest vn0 un t) :
    t.q * vn0 > base * t.rhat + un ↔
      2 ^ 32 * t.rhat.toNat + un.toNat < t.q.toNat * vn0.toNat := by
  have hl := h.left_lt
  have hr := h.right_lt
  rw [base_toNat] at hr
  rw [gt_iff_lt, BitVec.lt_def, BitVec.toNat_add, BitVec.toNat_mul, BitVec.toNat_mul,
    base_toNat, Nat.mod_eq_of_lt hl, Nat.mod_eq_of_lt (by omega : 2 ^ 32 * t.rhat.toNat < 2 ^ 64),
    Nat.mod_eq_of_lt hr]

/-- The loop test under the invariant. -/
theorem test_iff (hlo : vn0.toNat = d.lo) (hun : un.toNat < 2 ^ 32)
    (h : DigitInv d u un.toNat n t) :
    (correction vn1 vn0 un).test t = true ↔
      2 ^ 32 ≤ t.q.toNat ∨ 2 ^ 32 * t.rhat.toNat + un.toNat < t.q.toNat * d.lo := by
  have hge : t.q ≥ base ↔ 2 ^ 32 ≤ t.q.toNat := by
    rw [ge_iff_le, BitVec.le_def, base_toNat]
  simp only [correction, Bool.or_eq_true, decide_eq_true_eq, hge]
  by_cases hq : 2 ^ 32 ≤ t.q.toNat
  · simp only [hq, true_or]
  · rw [excess_toNat (exactTest_of_digitInv hlo hun h (Nat.lt_of_not_le hq)), hlo]

/-- The break condition under the invariant. -/
theorem brk_iff (hhi : vn1.toNat = d.hi) (h : DigitInv d u un.toNat n t) :
    (correction vn1 vn0 un).brk ((correction vn1 vn0 un).body t) = true ↔
      2 ^ 32 ≤ t.rhat.toNat + d.hi := by
  have hr : t.rhat.toNat < 2 ^ 32 := h.rhat_lt
  have hd := d.hi_lt
  simp only [correction, decide_eq_true_eq, ge_iff_le, BitVec.le_def, base_toNat,
    BitVec.toNat_add, hhi]
  rw [Nat.mod_eq_of_lt (by omega)]

/-- The state after one iteration, in exact integers. -/
theorem body_toNat (vn0 : BitVec 64) (hhi : vn1.toNat = d.hi) (h : DigitInv d u un.toNat n t)
    (hpos : 0 < t.q.toNat) :
    ((correction vn1 vn0 un).body t).q.toNat = t.q.toNat - 1 ∧
      ((correction vn1 vn0 un).body t).rhat.toNat = t.rhat.toNat + d.hi := by
  have hr : t.rhat.toNat < 2 ^ 32 := h.rhat_lt
  have hd := d.hi_lt
  have hq := t.q.isLt
  constructor
  · simp only [correction, BitVec.toNat_sub, BitVec.toNat_ofNat]
    omega
  · simp only [correction, BitVec.toNat_add, hhi]
    omega

/-- The first estimate, as the code computes it. -/
theorem digitInv_start {w : BitVec 64} (hhi : vn1.toNat = d.hi) (hw : w.toNat < d.value)
    (hun : un.toNat < 2 ^ 32) :
    DigitInv d w.toNat un.toNat 0 ⟨w / vn1, w - w / vn1 * vn1⟩ := by
  have hmul : w.toNat / d.hi * d.hi ≤ w.toNat := Nat.div_mul_le_self _ _
  have hlt := w.isLt
  have hrhat : (w - w / vn1 * vn1).toNat = w.toNat % d.hi := by
    rw [BitVec.toNat_sub, BitVec.toNat_mul, BitVec.toNat_udiv, hhi,
      Nat.mod_eq_of_lt (by omega : w.toNat / d.hi * d.hi < 2 ^ 64)]
    have := Nat.div_add_mod' w.toNat d.hi
    omega
  unfold DigitInv
  rw [hrhat, BitVec.toNat_udiv, hhi]
  exact estimate_start hw hun

/-- A correction loop ends within two iterations, with the quotient digit, and
every comparison it evaluates is exact. -/
theorem correction_run {w : BitVec 64} (hhi : vn1.toNat = d.hi) (hlo : vn0.toNat = d.lo)
    (hw : w.toNat < d.value) (hun : un.toNat < 2 ^ 32) :
    ∃ r, (correction vn1 vn0 un).run loopFuel ⟨w / vn1, w - w / vn1 * vn1⟩ = .ok r ∧
      r.final.q.toNat = (w.toNat * 2 ^ 32 + un.toNat) / d.value ∧
      r.iterations ≤ 2 ∧
      ∀ t ∈ r.tested, ¬ t.q ≥ base → ExactTest vn0 un t := by
  obtain ⟨r, hr, hpost, hiter, htested⟩ :=
    WhileBreak.run_from (correction vn1 vn0 un) (DigitInv d w.toNat un.toNat)
      (fun t => t.q.toNat = (w.toNat * 2 ^ 32 + un.toNat) / d.value) 2
      (fun n t h _ => h.count_lt)
      (by
        intro n t h htest hbrk
        have hlt := h.quotient_lt_of_test hw hun ((test_iff hlo hun h).1 htest)
        rw [(body_toNat vn0 hhi h (Nat.zero_lt_of_lt hlt)).1]
        exact h.eq_of_break hlt ((brk_iff hhi h).1 hbrk))
      (by
        intro n t h htest hbrk
        have hlt := h.quotient_lt_of_test hw hun ((test_iff hlo hun h).1 htest)
        have hbody := body_toNat vn0 hhi h (Nat.zero_lt_of_lt hlt)
        have hdigit : t.rhat.toNat + d.hi < 2 ^ 32 := by
          by_contra hge
          rw [(brk_iff hhi h).2 (Nat.le_of_not_lt hge)] at hbrk
          exact absurd hbrk (by decide)
        unfold DigitInv
        rw [hbody.1, hbody.2]
        exact h.lower hlt hdigit)
      (by
        intro n t h htest
        apply h.eq_of_fits
        by_contra hgt
        rw [(test_iff hlo hun h).2 (Or.inr (Nat.lt_of_not_le hgt))] at htest
        exact absurd htest (by decide))
      loopFuel 0 ⟨w / vn1, w - w / vn1 * vn1⟩ (by decide) (by decide)
      (digitInv_start hhi hw hun)
  refine ⟨r, hr, hpost, by omega, ?_⟩
  intro t ht hq
  obtain ⟨n, hinv⟩ := htested t ht
  refine exactTest_of_digitInv hlo hun hinv ?_
  rwa [ge_iff_le, BitVec.le_def, base_toNat, Nat.not_le] at hq

/-- The wrapped expression for a partial remainder is the remainder itself. -/
theorem remainder_toNat {w v q : BitVec 64} (hv : v.toNat = d.value)
    (hq : q.toNat = (w.toNat * 2 ^ 32 + un.toNat) / d.value) :
    (w * base + un - q * v).toNat = (w.toNat * 2 ^ 32 + un.toNat) % d.value := by
  have hdiv := Nat.div_add_mod' (w.toNat * 2 ^ 32 + un.toNat) d.value
  have hmod := Nat.mod_lt (w.toNat * 2 ^ 32 + un.toNat) d.value_pos
  have hlt := v.isLt
  rw [BitVec.toNat_sub, BitVec.toNat_add, BitVec.toNat_mul, BitVec.toNat_mul, base_toNat, hv, hq]
  -- both sides agree modulo the word, and the remainder is below the divisor
  generalize (w.toNat * 2 ^ 32 + un.toNat) / d.value * d.value = m at *
  omega

end Loop

/-! ## Normalisation -/

/-- The shifted operands: the divisor has its top bit set, and the pair
`un64`, `un10` is the dividend times the same power of two. -/
theorem normalise_spec {u1 u0 v : BitVec 64} {k : Nat} (hk : k < 64)
    (hu : u1.toNat < v.toNat) (hv : v.toNat * 2 ^ k < 2 ^ 64) :
    ∃ v' un64 un10, normalise u1 u0 v k = .ok (v', un64, un10) ∧
      v'.toNat = v.toNat * 2 ^ k ∧
      un64.toNat * 2 ^ 64 + un10.toNat = (u1.toNat * 2 ^ 64 + u0.toNat) * 2 ^ k ∧
      un64.toNat < v'.toNat := by
  rcases Nat.eq_zero_or_pos k with rfl | hpos
  · refine ⟨v, u1, u0, by simp [normalise], by simp, by simp, hu⟩
  have hpow : 2 ^ (64 - k) * 2 ^ k = 2 ^ 64 := by
    rw [← Nat.pow_add]
    congr 1
    omega
  have hstep : (u1.toNat + 1) * 2 ^ k ≤ v.toNat * 2 ^ k := Nat.mul_le_mul_right _ hu
  rw [Nat.add_mul, Nat.one_mul] at hstep
  have hshift : u1.toNat * 2 ^ k < 2 ^ 64 :=
    Nat.lt_of_le_of_lt (Nat.mul_le_mul_right _ (Nat.le_of_lt hu)) hv
  have hcarry : u0.toNat / 2 ^ (64 - k) < 2 ^ k := by
    rw [Nat.div_lt_iff_lt_mul (Nat.two_pow_pos _), Nat.mul_comm, hpow]
    exact u0.isLt
  have hun64 : (u1 <<< k ||| u0 >>> (64 - k)).toNat
      = u1.toNat * 2 ^ k + u0.toNat / 2 ^ (64 - k) := by
    rw [BitVec.toNat_or, BitVec.toNat_shiftLeft, BitVec.toNat_ushiftRight,
      Nat.shiftRight_eq_div_pow, Nat.mod_eq_of_lt (by rwa [Nat.shiftLeft_eq]),
      ← Nat.shiftLeft_add_eq_or_of_lt hcarry, Nat.shiftLeft_eq]
  refine ⟨v <<< k, u1 <<< k ||| u0 >>> (64 - k), u0 <<< k, ?_, ?_, ?_, ?_⟩
  · rw [normalise, if_pos (by exact_mod_cast hpos), shl_ok v rfl hk, shl_ok u1 rfl hk,
      shr_ok u0 (show nUdwordBits - (k : Int) = ((64 - k : Nat) : Int) by
        unfold nUdwordBits; omega) (by omega), shl_ok u0 rfl hk]
    rfl
  · rw [BitVec.toNat_shiftLeft, Nat.shiftLeft_eq, Nat.mod_eq_of_lt hv]
  · have hsplit := Nat.div_add_mod' (u0.toNat * 2 ^ k) (2 ^ 64)
    rw [← hpow, Nat.mul_div_mul_right _ _ (Nat.two_pow_pos k), hpow] at hsplit
    rw [hun64, BitVec.toNat_shiftLeft, Nat.shiftLeft_eq, Nat.add_mul, Nat.add_mul,
      Nat.mul_right_comm u1.toNat]
    omega
  · rw [hun64, BitVec.toNat_shiftLeft, Nat.shiftLeft_eq, Nat.mod_eq_of_lt hv]
    omega

/-- The two digits of a normalised divisor. -/
def divisorOf (v : BitVec 64) (hv : 2 ^ 63 ≤ v.toNat) : Divisor (2 ^ 32) where
  hi := v.toNat / 2 ^ 32
  lo := v.toNat % 2 ^ 32
  hi_lt := by
    have := v.isLt
    omega
  lo_lt := Nat.mod_lt _ (by decide)
  norm := by omega

theorem divisorOf_value (v : BitVec 64) (hv : 2 ^ 63 ≤ v.toNat) :
    (divisorOf v hv).value = v.toNat :=
  Nat.div_add_mod' v.toNat (2 ^ 32)

/-- The low digit of a word, as the code takes it. -/
theorem toNat_and_mask (x : BitVec 64) : (x &&& 0xFFFFFFFF#64).toNat = x.toNat % 2 ^ 32 :=
  Bits.toNat_and_lowMask (k := 32) rfl

/-! ## The whole body -/

/-- What the two correction loops and the partial remainder between them
amount to, in a run of the body. -/
structure DigitsSpec (l : Locals) : Prop where
  iterations1 : l.loop1.iterations ≤ 2
  iterations0 : l.loop0.iterations ≤ 2
  digit1_lt : l.loop1.final.q.toNat < 2 ^ 32
  digit0_lt : l.loop0.final.q.toNat < 2 ^ 32
  exact1 : ∀ t ∈ l.loop1.tested, ¬ t.q ≥ base → ExactTest l.vn0 l.un1 t
  exact0 : ∀ t ∈ l.loop0.tested, ¬ t.q ≥ base → ExactTest l.vn0 l.un0 t
  un21_eq : (l.un21.toNat : Int) =
    l.un64.toNat * 2 ^ 32 + l.un1.toNat - l.loop1.final.q.toNat * l.v.toNat
  un21_lt : l.un21.toNat < l.v.toNat

/-- The body from the normalised operands on.  Its quotient is the quotient of
the normalised dividend, and its remainder is shifted back. -/
theorem divideNormalised_spec {v un64 un10 : BitVec 64} {k : Nat} (hk : k < 64)
    (hv : 2 ^ 63 ≤ v.toNat) (hu : un64.toNat < v.toNat) :
    ∃ l, divideNormalised k v un64 un10 = .ok l ∧ l.s = k ∧ l.v = v ∧ DigitsSpec l ∧
      l.result.toNat = (un64.toNat * 2 ^ 64 + un10.toNat) / v.toNat ∧
      l.r.toNat = (un64.toNat * 2 ^ 64 + un10.toNat) % v.toNat / 2 ^ k := by
  have hvalue := divisorOf_value v hv
  have hhi : (v >>> 32).toNat = (divisorOf v hv).hi := Bits.toNat_shiftRight v 32
  have hlo : (v &&& 0xFFFFFFFF#64).toNat = (divisorOf v hv).lo := toNat_and_mask v
  have hvn1 : 0 < (v >>> 32).toNat := hhi ▸ (divisorOf v hv).hi_pos
  have hun10 := un10.isLt
  have hun1 : (un10 >>> 32).toNat < 2 ^ 32 := by
    rw [Bits.toNat_shiftRight]
    omega
  have hun0 : (un10 &&& 0xFFFFFFFF#64).toNat < 2 ^ 32 := by
    rw [toNat_and_mask]
    omega
  have hhalf : nUdwordBits / 2 = ((32 : Nat) : Int) := rfl
  -- the first digit and the partial remainder it leaves
  obtain ⟨loop1, hrun1, hq1, hiter1, hexact1⟩ := correction_run hhi hlo (hvalue ▸ hu) hun1
  have hlt1 := hq1 ▸ (divisorOf v hv).quotient_lt (hvalue ▸ hu) hun1
  have hrem1 := remainder_toNat hvalue.symm hq1
  set un21 := un64 * base + un10 >>> 32 - loop1.final.q * v with hun21def
  have hun21 : un21.toNat < (divisorOf v hv).value :=
    hrem1 ▸ Nat.mod_lt _ (divisorOf v hv).value_pos
  -- the second digit and the remainder
  obtain ⟨loop0, hrun0, hq0, hiter0, hexact0⟩ := correction_run hhi hlo hun21 hun0
  have hlt0 := hq0 ▸ (divisorOf v hv).quotient_lt hun21 hun0
  have hrem0 := remainder_toNat hvalue.symm hq0
  have hdigits : un64.toNat * 2 ^ 64 + un10.toNat
      = (un64.toNat * 2 ^ 32 + (un10 >>> 32).toNat) * 2 ^ 32
        + (un10 &&& 0xFFFFFFFF#64).toNat := by
    rw [Bits.toNat_shiftRight, toNat_and_mask]
    omega
  have htwo := two_digits_div_mod (x := (un10 >>> 32).toNat) (b := 2 ^ 32) (u := un64.toNat)
    (y := (un10 &&& 0xFFFFFFFF#64).toNat) (divisorOf v hv).value_pos
  rw [← hrem1, ← hdigits, hvalue] at htwo
  rw [hvalue] at hq1 hq0 hrem0 hrem1 hun21
  refine ⟨{ s := k, v := v, un64 := un64, un10 := un10, vn1 := v >>> 32,
            vn0 := v &&& 0xFFFFFFFF#64, un1 := un10 >>> 32, un0 := un10 &&& 0xFFFFFFFF#64,
            loop1 := loop1, un21 := un21, loop0 := loop0,
            r := (un21 * base + (un10 &&& 0xFFFFFFFF#64) - loop0.final.q * v) >>> k,
            result := loop1.final.q * base + loop0.final.q }, ?_, rfl, rfl, ?_, ?_, ?_⟩
  · rw [divideNormalised, shr_ok v hhalf (by decide), ok_bind, shr_ok un10 hhalf (by decide),
      ok_bind, udiv_ok un64 hvn1, ok_bind, hrun1, ok_bind]
    dsimp only
    rw [← hun21def, udiv_ok un21 hvn1, ok_bind, hrun0, ok_bind, shr_ok _ rfl hk, ok_bind,
      pure_eq_ok]
  · refine ⟨hiter1, hiter0, hlt1, hlt0, hexact1, hexact0, ?_, hun21⟩
    have := Nat.div_add_mod' (un64.toNat * 2 ^ 32 + (un10 >>> 32).toNat) v.toNat
    rw [← hq1, ← hrem1] at this
    have hcast : ((loop1.final.q.toNat * v.toNat + un21.toNat : Nat) : Int)
        = (un64.toNat * 2 ^ 32 + (un10 >>> 32).toNat : Nat) := congrArg _ this
    push_cast at hcast ⊢
    linarith
  · show (loop1.final.q * base + loop0.final.q).toNat = _
    rw [BitVec.toNat_add, BitVec.toNat_mul, base_toNat]
    rw [← htwo.1, ← hq1, ← hq0]
    omega
  · show ((un21 * base + (un10 &&& 0xFFFFFFFF#64) - loop0.final.q * v) >>> k).toNat = _
    rw [BitVec.toNat_ushiftRight, Nat.shiftRight_eq_div_pow, hrem0, htwo.2]

/-- Dividing the shifted dividend by the shifted divisor gives the quotient,
and the remainder times the power of two. -/
private theorem div_mod_shift (n v k : Nat) :
    n * 2 ^ k / (v * 2 ^ k) = n / v ∧ n * 2 ^ k % (v * 2 ^ k) / 2 ^ k = n % v := by
  constructor
  · exact Nat.mul_div_mul_right _ _ (Nat.two_pow_pos k)
  · rw [Nat.mul_mod_mul_right, Nat.mul_div_cancel _ (Nat.two_pow_pos k)]

/-- What the body of `udiv128by64to64default` computes: `v` is normalised by a
shift inside the word, and the results are the quotient and the remainder. -/
structure LocalsSpec (u1 u0 v : BitVec 64) (l : Locals) : Prop extends DigitsSpec l where
  shift_nonneg : 0 ≤ l.s
  shift_lt : l.s < 64
  v_eq : l.v.toNat = v.toNat * 2 ^ l.s.toNat
  v_ge : 2 ^ 63 ≤ l.v.toNat
  result_eq : l.result.toNat = (u1.toNat * 2 ^ 64 + u0.toNat) / v.toNat
  r_eq : l.r.toNat = (u1.toNat * 2 ^ 64 + u0.toNat) % v.toNat

/-- The body runs to its return and meets its specification. -/
theorem locals_spec {u1 v : BitVec 64} (u0 : BitVec 64) (hu : u1.toNat < v.toNat) :
    ∃ l, udiv128by64to64defaultLocals u1 u0 v = .ok l ∧ LocalsSpec u1 u0 v l := by
  have hvpos : 0 < v.toNat := Nat.zero_lt_of_lt hu
  obtain ⟨k, hk⟩ : ∃ k, k + v.toNat.log2 + 1 = 64 := ⟨v.clz.toNat, clz_add_log2 hvpos⟩
  have htop : 2 ^ 63 ≤ v.toNat * 2 ^ k := by
    calc 2 ^ 63 = 2 ^ v.toNat.log2 * 2 ^ k := by rw [← Nat.pow_add]; congr 1; omega
      _ ≤ v.toNat * 2 ^ k := Nat.mul_le_mul_right _ (Nat.log2_self_le (Nat.ne_of_gt hvpos))
  have hfit : v.toNat * 2 ^ k < 2 ^ 64 := by
    calc v.toNat * 2 ^ k < 2 ^ (v.toNat.log2 + 1) * 2 ^ k :=
          Nat.mul_lt_mul_of_pos_right Nat.lt_log2_self (Nat.two_pow_pos k)
      _ = 2 ^ 64 := by rw [← Nat.pow_add]; congr 1; omega
  obtain ⟨v', un64, un10, hnorm, hv', hun, hun64⟩ :=
    normalise_spec (by omega : k < 64) hu hfit
  obtain ⟨l, hl, hs, hlv, hdigits, hresult, hr⟩ :=
    divideNormalised_spec (by omega : k < 64) (hv' ▸ htop) hun64
  have hshift := div_mod_shift (u1.toNat * 2 ^ 64 + u0.toNat) v.toNat k
  refine ⟨l, ?_, hdigits, ?_, ?_, ?_, ?_, ?_, ?_⟩
  · rw [udiv128by64to64defaultLocals, clz_ok hvpos hk, ok_bind, hnorm, ok_bind]
    exact hl
  · omega
  · omega
  · rw [hlv, hv', hs, Int.toNat_natCast]
  · rw [hlv, hv']
    exact htop
  · rw [hresult, hun, hv', hshift.1]
  · rw [hr, hun, hv', hshift.2]

/-! ## The calls of `__udivmodti4` -/

/-- The high word of the dividend that `__udivmodti4` passes, on its two paths with a
divisor of 64 bits. -/
def passedHigh (a b : BitVec 128) : BitVec 64 :=
  if high a < low b then high a else high a % low b

/-- `quotient.s.high` on these two paths. -/
def passedQuotient (a b : BitVec 128) : BitVec 64 :=
  if high a < low b then 0#64 else high a / low b

theorem passedHigh_toNat (a b : BitVec 128) :
    (passedHigh a b).toNat = (high a).toNat % (low b).toNat := by
  unfold passedHigh
  split_ifs with h
  · rw [Nat.mod_eq_of_lt (BitVec.lt_def.1 h)]
  · rw [BitVec.toNat_umod]

theorem passedQuotient_toNat (a b : BitVec 128) :
    (passedQuotient a b).toNat = (high a).toNat / (low b).toNat := by
  unfold passedQuotient
  split_ifs with h
  · rw [Nat.div_eq_of_lt (BitVec.lt_def.1 h), BitVec.toNat_zero]
  · rw [BitVec.toNat_udiv]

/-- Both calls meet the precondition of `udiv128by64to64default`: the first by its
guard, the second because it passes a remainder. -/
theorem udivmodti4_narrow (a : BitVec 128) {b : BitVec 128} (rem : Bool) (hb : b ≠ 0#128)
    (hhigh : high b = 0#64) :
    passedHigh a b < low b ∧ (¬ b > a → udivmodti4 a b rem = (do
      let (q, r) ← udiv128by64to64 (passedHigh a b) (low a) (low b)
      return (utwords (passedQuotient a b) q, store rem (utwords 0#64 r)))) := by
  have hpos : 0 < (low b).toNat := by
    rcases Nat.eq_zero_or_pos (low b).toNat with h0 | hpos
    · have hsplit := toNat_halves b
      rw [hhigh, h0] at hsplit
      exact absurd (BitVec.eq_of_toNat_eq (by simpa using hsplit)) hb
    · exact hpos
  constructor
  · rw [BitVec.lt_def, passedHigh_toNat]
    exact Nat.mod_lt _ hpos
  · intro hle
    unfold udivmodti4 passedHigh passedQuotient
    rw [if_neg hle, if_pos hhigh]
    by_cases hfit : high a < low b
    · rw [if_pos hfit, if_pos hfit, if_pos hfit]
    · rw [if_neg hfit, if_neg hfit, if_neg hfit, udiv_ok _ hpos, ok_bind, umod_ok _ hpos, ok_bind]

/-! ## Results -/

/-- Both correction loops of `udiv128by64to64default` stay within two
iterations and leave a digit of 32 bits, no comparison that they evaluate
wraps, and `un21` is the exact partial remainder and below the normalised
divisor.  The two calls in `__udivmodti4` meet the precondition. -/
theorem udiv128by64to64default_corrections {u1 u0 v : BitVec 64} (h : u1 < v) :
    (∃ l, udiv128by64to64defaultLocals u1 u0 v = .ok l ∧
      (l.v.toNat = v.toNat * 2 ^ l.s.toNat ∧ 2 ^ 63 ≤ l.v.toNat) ∧ DigitsSpec l) ∧
    ∀ (a b : BitVec 128) (rem : Bool), b ≠ 0#128 → high b = 0#64 →
      passedHigh a b < low b ∧ (¬ b > a → udivmodti4 a b rem = (do
        let (q, r) ← udiv128by64to64 (passedHigh a b) (low a) (low b)
        return (utwords (passedQuotient a b) q, store rem (utwords 0#64 r)))) := by
  constructor
  · obtain ⟨l, hl, hspec⟩ := locals_spec u0 (BitVec.lt_def.1 h)
    exact ⟨l, hl, ⟨hspec.v_eq, hspec.v_ge⟩, hspec.toDigitsSpec⟩
  · exact fun a b rem hb hhigh => udivmodti4_narrow a rem hb hhigh

/-- An input at which both loops correct their digit twice. -/
theorem udiv128by64to64default_corrections_twice :
    (0x80000000FFFFFFFE#64 < 0x80000000FFFFFFFF#64) ∧
    (∃ l, udiv128by64to64defaultLocals 0x80000000FFFFFFFE#64 0xFFFFFFFF00000000#64
        0x80000000FFFFFFFF#64 = .ok l ∧
      l.loop1.iterations = 2 ∧ l.loop0.iterations = 2 ∧
      (l.v.toNat = (0x80000000FFFFFFFF#64).toNat * 2 ^ l.s.toNat ∧ 2 ^ 63 ≤ l.v.toNat) ∧
      DigitsSpec l) := by
  have hrun : (fun l : Locals => (l.loop1.iterations, l.loop0.iterations)) <$>
      udiv128by64to64defaultLocals 0x80000000FFFFFFFE#64 0xFFFFFFFF00000000#64
        0x80000000FFFFFFFF#64 = .ok (2, 2) := by
    decide +kernel
  obtain ⟨l, hl, hnorm, hspec⟩ := (udiv128by64to64default_corrections
    (show 0x80000000FFFFFFFE#64 < 0x80000000FFFFFFFF#64 by decide)).1
  rw [hl, map_ok, Except.ok.injEq, Prod.mk.injEq] at hrun
  exact ⟨by decide, l, hl, hrun.1, hrun.2, hnorm, hspec⟩

end Cheesecloth.Builtins.Udivmodti4
