import Mathlib.Data.Nat.Size
import Cheesecloth.CodeLib.Checked
import Cheesecloth.CodeLib.RestoringDivision

/-!
# The model of the unsigned part of `int_div_impl.inc`

`__udivXi3` and `__umodXi3`, which `udivsi3.c`, `umodsi3.c`, `udivdi3.c` and
`umoddi3.c` compile at 32 and at 64 bits, and `__udivmodsi4` over the first.

The loop compares without a branch, by the sign of `d - r - 1`.  That is a
comparison only while `d` and `r` are less than half the range apart.  A divisor
with its top bit set breaks this from the second step on, and it never gets there
(`ShiftSubtractInv.step`).

* `shiftSubtractLoop_inv`: what every number of steps of the loop keeps.
* `udivXi3_ok` and `umodXi3_ok`: the quotient and the remainder.
-/

namespace Cheesecloth.Builtins.IntDiv

open CodeLib CodeLib.Checked

variable {w : Nat}

/-! ## The routines -/

/-- The variables that the loop updates, besides `sr`. -/
structure Registers (w : Nat) where
  r : BitVec w
  n : BitVec w
  carry : BitVec w
  deriving DecidableEq, Repr

/-- The body of the loop. -/
def shiftSubtract (d : BitVec w) (t : Registers w) : Registers w :=
  let r := t.r <<< 1 ||| t.n >>> (w - 1)
  let n := t.n <<< 1 ||| t.carry
  let s := (d - r - 1#w).sshiftRight (w - 1)
  { r := r - (d &&& s), n := n, carry := s &&& 1#w }

/-- `for (; sr > 0; --sr)`. -/
def shiftSubtractLoop (d : BitVec w) : Nat → Registers w → Registers w
  | 0, t => t
  | sr + 1, t => shiftSubtractLoop d sr (shiftSubtract d t)

/-- `x ? clz(x) : N`. -/
def clzOrWidth (x : BitVec w) : Checked Int :=
  if x = 0#w then return w else clz x

/-- `unsigned sr = (d ? clz(d) : N) - (n ? clz(n) : N)`. -/
def shiftCount (n d : BitVec w) : Checked (BitVec 32) := do
  return BitVec.ofInt 32 ((← clzOrWidth d) - (← clzOrWidth n))

/-- What both routines do past their early exits: `++sr`, the two shifts and the
loop. -/
def divideFrom (n d : BitVec w) (sr : BitVec 32) : Checked (Registers w) := do
  let sr := sr + 1#32
  let r ← shr n sr.toNat
  let n ← shl n (w - sr.toNat)
  return shiftSubtractLoop d sr.toNat { r := r, n := n, carry := 0#w }

/-- `__udivXi3`. -/
def udivXi3 (n d : BitVec w) : Checked (BitVec w) := do
  let sr ← shiftCount n d
  if sr > BitVec.ofNat 32 (w - 1) then return 0#w
  else if sr = BitVec.ofNat 32 (w - 1) then return n
  else
    let t ← divideFrom n d sr
    return t.n <<< 1 ||| t.carry

/-- `__umodXi3`. -/
def umodXi3 (n d : BitVec w) : Checked (BitVec w) := do
  let sr ← shiftCount n d
  if sr > BitVec.ofNat 32 (w - 1) then return n
  else if sr = BitVec.ofNat 32 (w - 1) then return 0#w
  else
    let t ← divideFrom n d sr
    return t.r

/-- `__udivsi3`. -/
def udivsi3 (a b : BitVec 32) : Checked (BitVec 32) := udivXi3 a b

/-- `__umodsi3`. -/
def umodsi3 (a b : BitVec 32) : Checked (BitVec 32) := umodXi3 a b

/-- `__udivdi3`. -/
def udivdi3 (a b : BitVec 64) : Checked (BitVec 64) := udivXi3 a b

/-- `__umoddi3`. -/
def umoddi3 (a b : BitVec 64) : Checked (BitVec 64) := umodXi3 a b

/-- `__udivmodsi4`: the quotient that is returned and the value stored through
`rem`. -/
def udivmodsi4 (a b : BitVec 32) : Checked (BitVec 32 × BitVec 32) := do
  let d ← udivsi3 a b
  return (d, a - d * b)

/-! ## The loop -/

/-- What holds with `k` steps to go, for a dividend `n`.  The quotient so far is
split between the register and the carry. -/
structure ShiftSubtractInv (n : Nat) (d : BitVec w) (k q : Nat) (t : Registers w) : Prop where
  restored : Restored n d.toNat k q t.r.toNat
  register : t.n.toNat = register w n k (q / 2)
  carry : t.carry.toNat = q % 2

/-- The two ways in which the comparison is sound for the next `k` steps: a
divisor without its top bit, or a single step on a dividend with its top bit. -/
def Comparable (n : Nat) (d : BitVec w) (k : Nat) : Prop :=
  d.toNat ≤ 2 ^ (w - 1) ∨ k ≤ 1 ∧ 2 ^ (w - 1) ≤ n

namespace ShiftSubtractInv

variable {n k q : Nat} {d : BitVec w} {t : Registers w}

/-- The quotient fits the bits of the register that are free. -/
theorem quotient_lt (h : ShiftSubtractInv n d k q t) (hn : n < 2 ^ w) (hk : k ≤ w) :
    q < 2 ^ (w - k) := by
  refine Nat.lt_of_le_of_lt h.restored.quotient_le ?_
  rw [Nat.div_lt_iff_lt_mul (Nat.two_pow_pos k), ← Nat.pow_add, Nat.sub_add_cancel hk]
  exact hn

/-- The shifted remainder stays in the word, and within half the range of the
divisor. -/
theorem shifted_bounds (h : ShiftSubtractInv n d (k + 1) q t) (hn : n < 2 ^ w) (hw : 0 < w)
    (hcmp : Comparable n d (k + 1)) :
    t.r.toNat < 2 ^ (w - 1) ∧
      2 * t.r.toNat + n / 2 ^ k % 2 < d.toNat + 2 ^ (w - 1) ∧
      d.toNat ≤ 2 * t.r.toNat + n / 2 ^ k % 2 + 2 ^ (w - 1) := by
  have hlt := h.restored.rem_lt
  have hdlt := d.isLt
  have hpow : 2 ^ w = 2 * 2 ^ (w - 1) := by
    rw [← Nat.pow_succ', Nat.succ_eq_add_one, Nat.sub_add_cancel hw]
  rcases hcmp with hd | ⟨hk, hge⟩
  · omega
  · obtain rfl : k = 0 := by omega
    rcases Nat.lt_or_ge (2 ^ (w - 1)) d.toNat with hbig | hd
    · -- The top bit of the divisor is set, so that nothing has been subtracted.
      have hsplit := h.restored.split
      have hq : q = 0 := by
        by_contra hne
        have hle : d.toNat ≤ q * d.toNat := Nat.le_mul_of_pos_left _ (Nat.pos_of_ne_zero hne)
        rw [Nat.zero_add, Nat.pow_one] at hsplit
        omega
      rw [hq, Nat.zero_mul, Nat.zero_add, Nat.zero_add, Nat.pow_one] at hsplit
      rw [Nat.pow_zero, Nat.div_one]
      omega
    · omega

/-- One step of the loop. -/
theorem step (h : ShiftSubtractInv n d (k + 1) q t) (hn : n < 2 ^ w) (hk : k < w)
    (hcmp : Comparable n d (k + 1)) :
    ∃ q', ShiftSubtractInv n d k q' (shiftSubtract d t) := by
  have hw : 0 < w := by omega
  have hqlt := h.quotient_lt hn hk
  have hroom : 2 ^ (w - k) = 2 * 2 ^ (w - (k + 1)) := by
    rw [← Nat.pow_succ']
    congr 1
    omega
  obtain ⟨hrlt, hclose, hfar⟩ := h.shifted_bounds hn hw hcmp
  have hpow : 2 ^ w = 2 * 2 ^ (w - 1) := by
    rw [← Nat.pow_succ', Nat.succ_eq_add_one, Nat.sub_add_cancel hw]
  have hbit : (t.n >>> (w - 1)).toNat = n / 2 ^ k % 2 := by
    rw [Bits.toNat_shiftRight, h.register, register_div hk (by omega)]
  have hr : (t.r <<< 1 ||| t.n >>> (w - 1)).toNat = 2 * t.r.toNat + n / 2 ^ k % 2 := by
    rw [Bits.toNat_shiftLeft_one_or _ (by omega), hbit, Nat.mod_eq_of_lt (by omega), Nat.mul_comm]
  have hregister : (t.n <<< 1 ||| t.carry).toNat = CodeLib.register w n k q := by
    rw [Bits.toNat_shiftLeft_one_or _ (by rw [h.carry]; omega), h.register, h.carry,
      register_shift hk (by omega), show 2 * (q / 2) + q % 2 = q by omega]
  have hmask := borrowMask_eq (d := d) (r := t.r <<< 1 ||| t.n >>> (w - 1)) (by omega) (by omega)
  have hone : (1#w).toNat = 1 := by
    rw [BitVec.toNat_ofNat, Nat.mod_eq_of_lt (Nat.one_lt_two_pow (by omega))]
  have hnext := h.restored.step
  rw [hr] at hmask
  unfold shiftSubtract
  split_ifs at hmask hnext with hle
  · refine ⟨2 * q + 1, ?_, ?_, ?_⟩
    · dsimp only
      rw [hmask, BitVec.and_allOnes, BitVec.toNat_sub_of_le (by rw [BitVec.le_def, hr]; exact hle),
        hr]
      exact hnext
    · rw [show (2 * q + 1) / 2 = q by omega]
      exact hregister
    · dsimp only
      rw [hmask, BitVec.allOnes_and, hone]
      omega
  · refine ⟨2 * q, ?_, ?_, ?_⟩
    · dsimp only
      rw [hmask, BitVec.and_zero, BitVec.sub_zero, hr]
      exact hnext
    · rw [show 2 * q / 2 = q by omega]
      exact hregister
    · dsimp only
      rw [hmask, BitVec.zero_and, BitVec.toNat_zero]
      omega

end ShiftSubtractInv

/-- The whole loop. -/
theorem shiftSubtractLoop_inv {n : Nat} {d : BitVec w} (hn : n < 2 ^ w) :
    ∀ (k q : Nat) (t : Registers w), k ≤ w → Comparable n d k → ShiftSubtractInv n d k q t →
      ∃ q', ShiftSubtractInv n d 0 q' (shiftSubtractLoop d k t) := by
  intro k
  induction k with
  | zero => exact fun q t _ _ h => ⟨q, h⟩
  | succ k ih =>
    intro q t hk hcmp h
    obtain ⟨q', h'⟩ := h.step hn hk hcmp
    exact ih q' _ (by omega) (hcmp.imp_right fun hc => ⟨by omega, hc.2⟩) h'

/-- With no step to go the registers hold the quotient and the remainder. -/
theorem ShiftSubtractInv.result {n d : BitVec w} {q : Nat} {t : Registers w}
    (h : ShiftSubtractInv n.toNat d 0 q t) : t.n <<< 1 ||| t.carry = n / d ∧ t.r = n % d := by
  obtain ⟨hq, hr⟩ := h.restored.div_mod
  constructor
  · apply BitVec.eq_of_toNat_eq
    have hle := Nat.div_le_self n.toNat d.toNat
    have hlt := n.isLt
    rw [Bits.toNat_shiftLeft_one_or _ (by rw [h.carry]; omega), h.register, h.carry,
      register_zero, show q / 2 * 2 + q % 2 = q by omega, BitVec.toNat_udiv, hq,
      Nat.mod_eq_of_lt (by omega)]
  · apply BitVec.eq_of_toNat_eq
    rw [hr, BitVec.toNat_umod]

/-- The registers as they stand before the loop. -/
theorem shiftSubtractInv_start {n d : BitVec w} {k : Nat} (hk : k ≤ w)
    (h : n.toNat / 2 ^ k < d.toNat) :
    ShiftSubtractInv n.toNat d k 0 { r := n >>> k, n := n <<< (w - k), carry := 0#w } := by
  refine ⟨?_, ?_, ?_⟩
  · rw [Bits.toNat_shiftRight]
    exact Restored.start h
  · have hpow : 2 ^ w = 2 ^ k * 2 ^ (w - k) := by rw [← Nat.pow_add, Nat.add_sub_cancel' hk]
    rw [BitVec.toNat_shiftLeft, Nat.shiftLeft_eq, register, Nat.zero_div, Nat.add_zero, hpow,
      Nat.mul_mod_mul_right]
  · rw [BitVec.toNat_zero]

/-! ## The number of steps -/

theorem clzOrWidth_ok (x : BitVec w) : clzOrWidth x = .ok ((w - x.toNat.size : Nat) : Int) := by
  unfold clzOrWidth
  split_ifs with hzero
  · rw [hzero, BitVec.toNat_zero, Nat.size_zero]
    rfl
  · have hpos : 0 < x.toNat := Nat.pos_of_ne_zero fun h => hzero (BitVec.eq_of_toNat_eq h)
    have hsize : x.toNat.size = x.toNat.log2 + 1 :=
      le_antisymm (Nat.size_le.2 Nat.lt_log2_self) (Nat.lt_size.2 (Nat.log2_self_le hpos.ne'))
    have hlog := (Nat.log2_lt hpos.ne').2 x.isLt
    rw [hsize]
    exact clz_ok hpos (by omega)

theorem size_le_width (x : BitVec w) : x.toNat.size ≤ w := Nat.size_le.2 x.isLt

/-- The count is the difference of the sizes, as an `unsigned int`. -/
theorem shiftCount_ok (n d : BitVec w) :
    shiftCount n d = .ok (BitVec.ofInt 32 (n.toNat.size - d.toNat.size)) := by
  have hn := size_le_width n
  have hd := size_le_width d
  rw [shiftCount, clzOrWidth_ok, ok_bind, clzOrWidth_ok, ok_bind]
  congr 2
  omega

/-- A divisor with more bits makes the count wrap. -/
theorem shiftCount_wraps {n d : BitVec w} (hw : w < 2 ^ 31) (h : n.toNat.size < d.toNat.size) :
    BitVec.ofNat 32 (w - 1) < BitVec.ofInt 32 (n.toNat.size - d.toNat.size) := by
  have hd := size_le_width d
  rw [BitVec.lt_def, BitVec.toNat_ofNat, BitVec.toNat_ofInt, Nat.mod_eq_of_lt (by omega)]
  omega

theorem shiftCount_toNat {n d : BitVec w} (hw : w < 2 ^ 31) (h : d.toNat.size ≤ n.toNat.size) :
    (BitVec.ofInt 32 (n.toNat.size - d.toNat.size)).toNat = n.toNat.size - d.toNat.size := by
  have hn := size_le_width n
  rw [BitVec.toNat_ofInt]
  omega

/-! ## Correctness -/

section Correctness

variable {n d : BitVec w}

/-- A dividend of fewer bits is the smaller one. -/
theorem lt_of_size_lt (h : n.toNat.size < d.toNat.size) : n.toNat < d.toNat :=
  Nat.lt_of_lt_of_le (Nat.lt_size_self n.toNat) (Nat.lt_size.1 h)

/-- With all bits but one shifted off the dividend that reach past the divisor, the
loop divides. -/
theorem shiftSubtractLoop_ok {k : Nat} (hd : 0 < d.toNat)
    (hk : n.toNat.size + 1 = d.toNat.size + k) (hpos : 0 < k) :
    let t := shiftSubtractLoop d k { r := n >>> k, n := n <<< (w - k), carry := 0#w }
    t.n <<< 1 ||| t.carry = n / d ∧ t.r = n % d := by
  have hdsize : 0 < d.toNat.size := Nat.size_pos.2 hd
  have hnsize := size_le_width n
  have hlow : 2 ^ (d.toNat.size - 1) ≤ d.toNat := Nat.lt_size.1 (by omega)
  have hstart : n.toNat / 2 ^ k < d.toNat := by
    refine Nat.lt_of_lt_of_le ?_ hlow
    rw [Nat.div_lt_iff_lt_mul (Nat.two_pow_pos _), ← Nat.pow_add,
      show d.toNat.size - 1 + k = n.toNat.size by omega]
    exact Nat.lt_size_self _
  have hcmp : Comparable n.toNat d k := by
    rcases Nat.lt_or_ge d.toNat.size w with hsmall | hbig
    · exact Or.inl (Nat.le_of_lt (Nat.size_le.1 (by omega)))
    · exact Or.inr ⟨by omega, Nat.lt_size.1 (by omega)⟩
  obtain ⟨q, hinv⟩ := shiftSubtractLoop_inv n.isLt k 0 _ (by omega) hcmp
    (shiftSubtractInv_start (by omega) hstart)
  exact hinv.result

theorem divideFrom_ok {k : Nat} {sr : BitVec 32} (hw : w < 2 ^ 31) (hd : 0 < d.toNat)
    (hsr : sr.toNat = k) (hk : n.toNat.size = d.toNat.size + k) (hlt : k + 1 < w) :
    ∃ t, divideFrom n d sr = .ok t ∧ t.n <<< 1 ||| t.carry = n / d ∧ t.r = n % d := by
  have hcount : (sr + 1#32).toNat = k + 1 := by
    rw [BitVec.toNat_add, hsr, BitVec.toNat_ofNat]
    omega
  refine ⟨_, ?_, shiftSubtractLoop_ok (n := n) (k := k + 1) hd (by omega) (by omega)⟩
  rw [divideFrom, hcount, shr_ok n rfl hlt, ok_bind, shl_ok n (k := w - (k + 1)) (by omega)
    (by omega)]
  rfl

/-- The three ways through both routines. -/
theorem divXi3_cases (hw : w < 2 ^ 31) (hd : 0 < d.toNat) :
    (n.toNat < d.toNat ∧ udivXi3 n d = .ok 0#w ∧ umodXi3 n d = .ok n) ∨
    (d.toNat = 1 ∧ udivXi3 n d = .ok n ∧ umodXi3 n d = .ok 0#w) ∨
    udivXi3 n d = .ok (n / d) ∧ umodXi3 n d = .ok (n % d) := by
  have hdsize : 0 < d.toNat.size := Nat.size_pos.2 hd
  have hnsize := size_le_width n
  have hlast : (BitVec.ofNat 32 (w - 1)).toNat = w - 1 := by
    rw [BitVec.toNat_ofNat, Nat.mod_eq_of_lt (by omega)]
  unfold udivXi3 umodXi3
  rw [shiftCount_ok, ok_bind, ok_bind]
  rcases Nat.lt_or_ge n.toNat.size d.toNat.size with hsmall | hge
  · have hwraps := shiftCount_wraps hw hsmall
    rw [if_pos hwraps, if_pos hwraps]
    exact Or.inl ⟨lt_of_size_lt hsmall, rfl, rfl⟩
  · have hcount := shiftCount_toNat hw hge
    generalize BitVec.ofInt 32 (n.toNat.size - d.toNat.size) = sr at *
    have hle : ¬ sr > BitVec.ofNat 32 (w - 1) := by
      rw [gt_iff_lt, BitVec.lt_def]
      omega
    rw [if_neg hle, if_neg hle]
    by_cases heq : sr = BitVec.ofNat 32 (w - 1)
    · rw [if_pos heq, if_pos heq]
      rw [heq, hlast] at hcount
      have hone : d.toNat < 2 ^ 1 := Nat.size_le.1 (by omega)
      exact Or.inr (Or.inl ⟨by omega, rfl, rfl⟩)
    · rw [if_neg heq, if_neg heq]
      have hne : sr.toNat ≠ w - 1 := fun h => heq (BitVec.eq_of_toNat_eq (h.trans hlast.symm))
      obtain ⟨t, ht, hquotient, hremainder⟩ := divideFrom_ok (n := n) hw hd hcount (by omega)
        (by omega)
      rw [ht, ok_bind, ok_bind, hquotient, hremainder]
      exact Or.inr (Or.inr ⟨rfl, rfl⟩)

/-- The two routines divide, at every width and without a fault. -/
theorem divXi3_ok (hw : w < 2 ^ 31) (hd : d ≠ 0#w) :
    udivXi3 n d = .ok (n / d) ∧ umodXi3 n d = .ok (n % d) := by
  have hpos : 0 < d.toNat := Nat.pos_of_ne_zero fun h => hd (BitVec.eq_of_toNat_eq h)
  rcases divXi3_cases (n := n) hw hpos with ⟨hlt, hdiv, hmod⟩ | ⟨hone, hdiv, hmod⟩ | h
  · rw [hdiv, hmod, BitVec.udiv_eq_zero_iff_eq_zero_or_lt.2 (Or.inr hlt),
      BitVec.umod_eq_of_lt hlt]
    exact ⟨rfl, rfl⟩
  · obtain rfl : d = 1#w := by
      apply BitVec.eq_of_toNat_eq
      rw [hone, BitVec.toNat_ofNat, Nat.mod_eq_of_lt]
      exact hone ▸ d.isLt
    rw [hdiv, hmod, BitVec.udiv_one, BitVec.umod_one]
    exact ⟨rfl, rfl⟩
  · exact h

end Correctness

/-- The remainder as `__udivmodsi4` has it. -/
theorem sub_udiv_mul (a b : BitVec w) : a - a / b * b = a % b := by
  have hle := Nat.div_mul_le_self a.toNat b.toNat
  have hproduct : (a / b * b).toNat = a.toNat / b.toNat * b.toNat := by
    rw [BitVec.toNat_mul, BitVec.toNat_udiv, Nat.mod_eq_of_lt (Nat.lt_of_le_of_lt hle a.isLt)]
  apply BitVec.eq_of_toNat_eq
  rw [BitVec.toNat_sub_of_le (by rw [BitVec.le_def, hproduct]; exact hle), hproduct,
    BitVec.toNat_umod, Nat.mod_eq_sub_div_mul]

theorem udivmodsi4_ok {a b : BitVec 32} (hb : b ≠ 0#32) :
    udivmodsi4 a b = .ok (a / b, a % b) := by
  rw [udivmodsi4, udivsi3, (divXi3_ok (by decide) hb).1, ok_bind, sub_udiv_mul]
  rfl

/-- `__udivsi3`, `__umodsi3`, `__udivmodsi4`, `__udivdi3` and `__umoddi3` return the
quotient and the remainder for every divisor but zero. -/
theorem unsigned_division {a b : BitVec 32} {c d : BitVec 64} (hb : b ≠ 0#32) (hd : d ≠ 0#64) :
    udivsi3 a b = .ok (a / b) ∧ umodsi3 a b = .ok (a % b) ∧
      udivmodsi4 a b = .ok (a / b, a % b) ∧
      udivdi3 c d = .ok (c / d) ∧ umoddi3 c d = .ok (c % d) := by
  obtain ⟨hdiv, hmod⟩ := divXi3_ok (n := a) (by decide) hb
  obtain ⟨hdiv', hmod'⟩ := divXi3_ok (n := c) (by decide) hd
  exact ⟨hdiv, hmod, udivmodsi4_ok hb, hdiv', hmod'⟩

/-- Divisors with and without their top bit. -/
theorem unsigned_division_top_bit :
    0x80000001#32 ≠ 0#32 ∧ 0x3#64 ≠ 0#64 ∧
      udivsi3 0xFFFFFFFF#32 0x80000001#32 = .ok (0xFFFFFFFF#32 / 0x80000001#32) ∧
      umoddi3 0xFFFFFFFFFFFFFFFE#64 0x3#64 = .ok (0xFFFFFFFFFFFFFFFE#64 % 0x3#64) :=
  have h := unsigned_division (a := 0xFFFFFFFF#32) (b := 0x80000001#32)
    (c := 0xFFFFFFFFFFFFFFFE#64) (d := 0x3#64) (by decide) (by decide)
  ⟨by decide, by decide, h.1, h.2.2.2.2⟩

end Cheesecloth.Builtins.IntDiv
