import Mathlib.Data.List.Basic
import Cheesecloth.Builtins.IntDiv.Unsigned

/-!
# `__udivmoddi4`

`udivmoddi4.c` divides words of 64 bits with the operations of 32-bit words.  It
treats operands with an empty half and divisors that are powers of two apart.  All
others go through the loop of `int_div_impl.inc`, on halves.

* `start_ok`: the early exits return the result, and the loop is entered with the
  dividend shifted by the difference of the sizes.
* `Words.all_shiftSubtract`: the loop on halves is the loop on whole words.
* `udivmoddi4_ok`: the quotient and the remainder.
* `udivmoddi4_eq_plain`: the routine agrees with the plain loop on whole words.
-/

namespace Cheesecloth.Builtins.IntDiv

open CodeLib CodeLib.Checked

/-! ## The routine -/

/-- `x.s.high`. -/
def highWord (x : BitVec 64) : BitVec 32 := x.extractLsb' 32 32

/-- `x.s.low`. -/
def lowWord (x : BitVec 64) : BitVec 32 := x.extractLsb' 0 32

/-- `*rem = x` if `rem` is not null.  The value is not computed otherwise. -/
def store (rem : Bool) (x : Checked (BitVec 64)) : Checked (Option (BitVec 64)) :=
  if rem then some <$> x else return none

/-- `q` and `r` in halves. -/
structure Words where
  rHigh : BitVec 32
  rLow : BitVec 32
  qHigh : BitVec 32
  qLow : BitVec 32
  carry : BitVec 32
  deriving DecidableEq, Repr

/-- The shifts `q.all = n.all << (64 - sr)` and `r.all = n.all >> sr` for `sr` below
the size of a half. -/
def splitBelow (nHigh nLow : BitVec 32) (sr : BitVec 32) : Checked Words := do
  let qHigh ← shl nLow (32 - sr.toNat)
  let rHigh ← shr nHigh sr.toNat
  let rLow := (← shl nHigh (32 - sr.toNat)) ||| (← shr nLow sr.toNat)
  return { rHigh := rHigh, rLow := rLow, qHigh := qHigh, qLow := 0#32, carry := 0#32 }

/-- The same for the size of a half. -/
def splitAt (nHigh nLow : BitVec 32) : Words :=
  { rHigh := 0#32, rLow := nHigh, qHigh := nLow, qLow := 0#32, carry := 0#32 }

/-- The same above the size of a half. -/
def splitAbove (nHigh nLow : BitVec 32) (sr : BitVec 32) : Checked Words := do
  let qLow ← shl nLow (64 - sr.toNat)
  let qHigh := (← shl nHigh (64 - sr.toNat)) ||| (← shr nLow (sr.toNat - 32))
  let rLow ← shr nHigh (sr.toNat - 32)
  return { rHigh := 0#32, rLow := rLow, qHigh := qHigh, qLow := qLow, carry := 0#32 }

/-- How the routine goes on past its special cases. -/
inductive Start where
  | exit (q : BitVec 64) (rem : Option (BitVec 64))
  | loop (sr : BitVec 32) (t : Words)
  deriving DecidableEq, Repr

/-- The case `n.s.high == 0`. -/
def startNarrow (n d : BitVec 64) (rem : Bool) : Checked Start :=
  if highWord d = 0#32 then do
    let r ← store rem ((0#32 ++ ·) <$> umod (lowWord n) (lowWord d))
    return .exit (0#32 ++ (← udiv (lowWord n) (lowWord d))) r
  else do
    return .exit 0#64 (← store rem (return 0#32 ++ lowWord n))

/-- The case `d.s.low == 0`. -/
def startHighDivisor (n d : BitVec 64) (rem : Bool) : Checked Start :=
  if highWord d = 0#32 then do
    let r ← store rem ((0#32 ++ ·) <$> umod (highWord n) (lowWord d))
    return .exit (0#32 ++ (← udiv (highWord n) (lowWord d))) r
  else if lowWord n = 0#32 then do
    let r ← store rem ((· ++ 0#32) <$> umod (highWord n) (highWord d))
    return .exit (0#32 ++ (← udiv (highWord n) (highWord d))) r
  else if highWord d &&& (highWord d - 1#32) = 0#32 then do
    let r ← store rem (return (highWord n &&& (highWord d - 1#32)) ++ lowWord n)
    return .exit (0#32 ++ (← shr (highWord n) (← ctz (highWord d)))) r
  else do
    let sr := BitVec.ofInt 32 ((← clz (highWord d)) - (← clz (highWord n)))
    if sr > 30#32 then
      return .exit 0#64 (← store rem (return n))
    else
      let sr := sr + 1#32
      return .loop sr (← splitBelow (highWord n) (lowWord n) sr)

/-- The case `d.s.high == 0`. -/
def startLowDivisor (n d : BitVec 64) (rem : Bool) : Checked Start :=
  if lowWord d &&& (lowWord d - 1#32) = 0#32 then do
    let r ← store rem (return 0#32 ++ (lowWord n &&& (lowWord d - 1#32)))
    if lowWord d = 1#32 then
      return .exit n r
    else
      let sr ← ctz (lowWord d)
      let qHigh ← shr (highWord n) sr
      let qLow := (← shl (highWord n) (32 - sr)) ||| (← shr (lowWord n) sr)
      return .exit (qHigh ++ qLow) r
  else do
    let sr := BitVec.ofInt 32 (1 + 32 + (← clz (lowWord d)) - (← clz (highWord n)))
    if sr = 32#32 then
      return .loop sr (splitAt (highWord n) (lowWord n))
    else if sr < 32#32 then
      return .loop sr (← splitBelow (highWord n) (lowWord n) sr)
    else
      return .loop sr (← splitAbove (highWord n) (lowWord n) sr)

/-- The last case: no half but `n.s.low` is known to be zero or not. -/
def startWide (n d : BitVec 64) (rem : Bool) : Checked Start := do
  let sr := BitVec.ofInt 32 ((← clz (highWord d)) - (← clz (highWord n)))
  if sr > 31#32 then
    return .exit 0#64 (← store rem (return n))
  else
    let sr := sr + 1#32
    if sr = 32#32 then
      return .loop sr (splitAt (highWord n) (lowWord n))
    else
      return .loop sr (← splitBelow (highWord n) (lowWord n) sr)

/-- The special cases. -/
def start (n d : BitVec 64) (rem : Bool) : Checked Start :=
  if highWord n = 0#32 then startNarrow n d rem
  else if lowWord d = 0#32 then startHighDivisor n d rem
  else if highWord d = 0#32 then startLowDivisor n d rem
  else startWide n d rem

/-- The body of the loop. -/
def Words.shiftSubtract (d : BitVec 64) (t : Words) : Words :=
  let rHigh := t.rHigh <<< 1 ||| t.rLow >>> 31
  let rLow := t.rLow <<< 1 ||| t.qHigh >>> 31
  let qHigh := t.qHigh <<< 1 ||| t.qLow >>> 31
  let qLow := t.qLow <<< 1 ||| t.carry
  let s := (d - (rHigh ++ rLow) - 1#64).sshiftRight 63
  let r := (rHigh ++ rLow) - (d &&& s)
  { rHigh := highWord r, rLow := lowWord r, qHigh := qHigh, qLow := qLow,
    carry := (s &&& 1#64).setWidth 32 }

/-- `for (; sr > 0; --sr)`. -/
def Words.shiftSubtractLoop (d : BitVec 64) : Nat → Words → Words
  | 0, t => t
  | sr + 1, t => Words.shiftSubtractLoop d sr (t.shiftSubtract d)

/-- `__udivmoddi4`: the quotient that is returned and the value stored through
`rem`.  The argument `rem` says whether the pointer is not null. -/
def udivmoddi4 (a b : BitVec 64) (rem : Bool) : Checked (BitVec 64 × Option (BitVec 64)) := do
  match ← start a b rem with
  | .exit q r => return (q, r)
  | .loop sr t =>
    let t := Words.shiftSubtractLoop b sr.toNat t
    let r ← store rem (return t.rHigh ++ t.rLow)
    return ((t.qHigh ++ t.qLow) <<< 1 ||| t.carry.setWidth 64, r)

/-! ## Halves -/

section Halves

variable (x : BitVec 64) (h l c : BitVec 32)

@[simp] theorem high_append_low : highWord x ++ lowWord x = x := by
  unfold highWord lowWord
  ext i hi
  grind

theorem highWord_toNat : (highWord x).toNat = x.toNat / 2 ^ 32 :=
  Bits.toNat_extractHigh (v := 32) (w := 32) x

theorem lowWord_toNat : (lowWord x).toNat = x.toNat % 2 ^ 32 :=
  Bits.toNat_extractLow (v := 32) (w := 32) x

theorem toNat_halves : x.toNat = (highWord x).toNat * 2 ^ 32 + (lowWord x).toNat := by
  rw [highWord_toNat, lowWord_toNat]
  omega

/-- A shift by one across the halves. -/
theorem append_shiftLeft_one :
    (h <<< 1 ||| l >>> 31) ++ (l <<< 1 ||| c) = (h ++ l) <<< 1 ||| c.setWidth 64 := by
  ext i hi
  grind

theorem append_shiftRight_last : (h ++ l) >>> 63 = (h >>> 31).setWidth 64 := by
  ext i hi
  grind

/-- The shifts of `splitBelow`. -/
theorem append_shiftRight {k : Nat} (hpos : 0 < k) (hk : k < 32) :
    (h >>> k) ++ (h <<< (32 - k) ||| l >>> k) = (h ++ l) >>> k := by
  ext i hi
  grind

theorem append_shiftLeft_below {k : Nat} (hk : k < 32) :
    l <<< (32 - k) ++ 0#32 = (h ++ l) <<< (64 - k) := by
  ext i hi
  grind

/-- The shifts of `splitAbove`. -/
theorem append_shiftRight_above {k : Nat} (hge : 32 ≤ k) :
    0#32 ++ h >>> (k - 32) = (h ++ l) >>> k := by
  ext i hi
  grind

theorem append_shiftLeft_above {k : Nat} (hge : 32 < k) (hk : k < 64) :
    (h <<< (64 - k) ||| l >>> (k - 32)) ++ l <<< (64 - k) = (h ++ l) <<< (64 - k) := by
  ext i hi
  grind

end Halves

/-! ## The loop on halves -/

namespace Words

/-- The registers as whole words. -/
def all (t : Words) : Registers 64 :=
  { r := t.rHigh ++ t.rLow, n := t.qHigh ++ t.qLow, carry := t.carry.setWidth 64 }

/-- One step on halves is one step on whole words. -/
theorem all_shiftSubtract (d : BitVec 64) (t : Words) :
    (t.shiftSubtract d).all = IntDiv.shiftSubtract d t.all := by
  have hr : (t.rHigh <<< 1 ||| t.rLow >>> 31) ++ (t.rLow <<< 1 ||| t.qHigh >>> 31) =
      (t.rHigh ++ t.rLow) <<< 1 ||| (t.qHigh ++ t.qLow) >>> 63 := by
    rw [append_shiftLeft_one, append_shiftRight_last]
  have hcarry : ∀ s : BitVec 64, ((s &&& 1#64).setWidth 32).setWidth 64 = s &&& 1#64 := by
    intro s
    ext i hi
    grind
  unfold shiftSubtract IntDiv.shiftSubtract all
  dsimp only
  rw [hr, high_append_low, append_shiftLeft_one, hcarry]

/-- The loop on halves simulates the loop on whole words. -/
theorem all_shiftSubtractLoop (d : BitVec 64) (k : Nat) (t : Words) :
    (shiftSubtractLoop d k t).all = IntDiv.shiftSubtractLoop d k t.all := by
  induction k generalizing t with
  | zero => rfl
  | succ k ih => rw [shiftSubtractLoop, ih, all_shiftSubtract, IntDiv.shiftSubtractLoop]

end Words

/-- The registers as the loop needs them: the dividend shifted by `k`, and no
quotient yet. -/
def Words.Split (n : BitVec 64) (k : Nat) (t : Words) : Prop :=
  t.all = { r := n >>> k, n := n <<< (64 - k), carry := 0#64 }

theorem splitBelow_ok {n : BitVec 64} {sr : BitVec 32} {k : Nat} (hsr : sr.toNat = k)
    (hpos : 0 < k) (hk : k < 32) :
    ∃ t, splitBelow (highWord n) (lowWord n) sr = .ok t ∧ t.Split n k := by
  have hright := append_shiftRight (highWord n) (lowWord n) hpos hk
  have hleft := append_shiftLeft_below (highWord n) (lowWord n) hk
  rw [high_append_low] at hright hleft
  refine ⟨⟨highWord n >>> k, highWord n <<< (32 - k) ||| lowWord n >>> k, lowWord n <<< (32 - k),
    0#32, 0#32⟩, ?_, ?_⟩
  · rw [splitBelow, hsr, shl_ok (lowWord n) (k := 32 - k) (by omega) (by omega), ok_bind,
      shr_ok (highWord n) rfl hk, ok_bind, shl_ok (highWord n) (k := 32 - k) (by omega) (by omega),
      ok_bind, shr_ok (lowWord n) rfl hk]
    rfl
  · rw [Words.Split, Words.all, hright, hleft]
    rfl

theorem splitAt_split (n : BitVec 64) : (splitAt (highWord n) (lowWord n)).Split n 32 := by
  have hright := append_shiftRight_above (highWord n) (lowWord n) (Nat.le_refl 32)
  have hleft : lowWord n ++ 0#32 = n <<< (64 - 32) := by
    unfold lowWord
    ext i hi
    grind
  rw [high_append_low, Nat.sub_self, BitVec.ushiftRight_zero] at hright
  rw [Words.Split, Words.all, splitAt, hright, hleft]
  rfl

theorem splitAbove_ok {n : BitVec 64} {sr : BitVec 32} {k : Nat} (hsr : sr.toNat = k)
    (hge : 32 < k) (hk : k < 64) :
    ∃ t, splitAbove (highWord n) (lowWord n) sr = .ok t ∧ t.Split n k := by
  have hright := append_shiftRight_above (highWord n) (lowWord n) (Nat.le_of_lt hge)
  have hleft := append_shiftLeft_above (highWord n) (lowWord n) hge hk
  rw [high_append_low] at hright hleft
  refine ⟨⟨0#32, highWord n >>> (k - 32), highWord n <<< (64 - k) ||| lowWord n >>> (k - 32),
    lowWord n <<< (64 - k), 0#32⟩, ?_, ?_⟩
  · rw [splitAbove, hsr, shl_ok (lowWord n) (k := 64 - k) (by omega) (by omega), ok_bind,
      shl_ok (highWord n) (k := 64 - k) (by omega) (by omega), ok_bind,
      shr_ok (lowWord n) (k := k - 32) (by omega) (by omega), ok_bind,
      shr_ok (highWord n) (k := k - 32) (by omega) (by omega)]
    rfl
  · rw [Words.Split, Words.all, hright, hleft]
    rfl

/-! ## The special cases -/

/-- What the special cases hand on.  The count of the loop is the difference of the
sizes. -/
def Start.Correct (n d : BitVec 64) (rem : Bool) : Start → Prop
  | .exit q r => q = n / d ∧ r = if rem then some (n % d) else none
  | .loop sr t => 0 < sr.toNat ∧ n.toNat.size + 1 = d.toNat.size + sr.toNat ∧ t.Split n sr.toNat

theorem store_ok (rem : Bool) (x : BitVec 64) :
    store rem (.ok x) = .ok (if rem then some x else none) := by
  cases rem <;> rfl

theorem toNat_pos {w : Nat} {x : BitVec w} (hx : x ≠ 0#w) : 0 < x.toNat :=
  Nat.pos_of_ne_zero fun h => hx (BitVec.eq_of_toNat_eq h)

theorem clz_size {w : Nat} {x : BitVec w} (hx : x ≠ 0#w) :
    clz x = .ok ((w - x.toNat.size : Nat) : Int) := by
  have h := clzOrWidth_ok x
  rwa [clzOrWidth, if_neg hx] at h

theorem size_of_high {x : BitVec 64} (hx : highWord x ≠ 0#32) :
    x.toNat.size = (highWord x).toNat.size + 32 := by
  have hsplit := toNat_halves x
  have hlow := (lowWord x).isLt
  have hsize := Nat.size_pos.2 (toNat_pos hx)
  have hbelow : 2 ^ ((highWord x).toNat.size - 1) ≤ (highWord x).toNat :=
    Nat.lt_size.1 (by omega)
  have habove := Nat.lt_size_self (highWord x).toNat
  apply le_antisymm
  · rw [Nat.size_le, Nat.pow_add]
    omega
  · have hlt : (highWord x).toNat.size - 1 + 32 < x.toNat.size := by
      rw [Nat.lt_size, Nat.pow_add]
      omega
    omega

theorem toNat_of_narrow {x : BitVec 64} (hx : highWord x = 0#32) :
    x.toNat = (lowWord x).toNat := by
  rw [toNat_halves, hx, BitVec.toNat_zero, Nat.zero_mul, Nat.zero_add]

/-- A dividend below the divisor. -/
theorem Start.correct_of_lt {n d : BitVec 64} (rem : Bool) (h : n.toNat < d.toNat) :
    (Start.exit 0#64 (if rem then some n else none)).Correct n d rem := by
  refine ⟨(BitVec.udiv_eq_zero_iff_eq_zero_or_lt.2 (Or.inr h)).symm, ?_⟩
  rw [BitVec.umod_eq_of_lt h]

/-- A power of two, as the test finds it. -/
theorem exists_two_pow {x : BitVec 32} (hx : x ≠ 0#32) (h : x &&& (x - 1#32) = 0#32) :
    ∃ k, x.toNat = 2 ^ k ∧ (x - 1#32).toNat = 2 ^ k - 1 := by
  have hpos := toNat_pos hx
  have hpred : (x - 1#32).toNat = x.toNat - 1 :=
    BitVec.toNat_sub_of_le (by rw [BitVec.le_def, BitVec.toNat_ofNat]; omega)
  have hand := congrArg BitVec.toNat h
  rw [BitVec.toNat_and, hpred, BitVec.toNat_zero] at hand
  obtain ⟨k, hk⟩ := (Nat.and_sub_one_eq_zero_iff_isPowerOfTwo hpos.ne').1 hand
  exact ⟨k, hk, by rw [hpred, hk]⟩

theorem startNarrow_ok {n d : BitVec 64} (rem : Bool) (hd : d ≠ 0#64) (hn : highWord n = 0#32) :
    ∃ s, startNarrow n d rem = .ok s ∧ s.Correct n d rem := by
  have hnNat := toNat_of_narrow hn
  unfold startNarrow
  split_ifs with hhigh
  · have hdNat := toNat_of_narrow hhigh
    have hpos : 0 < (lowWord d).toNat := hdNat ▸ toNat_pos hd
    rw [umod_ok _ hpos, udiv_ok _ hpos, map_ok, store_ok, ok_bind, ok_bind]
    refine ⟨_, rfl, ?_, ?_⟩
    · apply BitVec.eq_of_toNat_eq
      rw [Bits.toNat_append, BitVec.toNat_zero, BitVec.toNat_udiv, BitVec.toNat_udiv, hnNat, hdNat]
      omega
    · have hmod : 0#32 ++ lowWord n % lowWord d = n % d := by
        apply BitVec.eq_of_toNat_eq
        rw [Bits.toNat_append, BitVec.toNat_zero, BitVec.toNat_umod,
          BitVec.toNat_umod, hnNat, hdNat]
        omega
      rw [hmod]
  · have hpos := toNat_pos hhigh
    have hdNat := toNat_halves d
    have hlow := (lowWord n).isLt
    have hword : 0#32 ++ lowWord n = n := by
      rw [← hn]
      exact high_append_low n
    rw [pure_eq_ok, store_ok, ok_bind, hword]
    exact ⟨_, rfl, Start.correct_of_lt rem (by omega)⟩

/-- The count of the cases that compare the upper halves. -/
theorem highCount {n d : BitVec 64} (hn : highWord n ≠ 0#32) (hd : highWord d ≠ 0#32) :
    n.toNat < d.toNat ∧
        31#32 < BitVec.ofInt 32 (((32 - (highWord d).toNat.size : Nat) : Int) -
          ((32 - (highWord n).toNat.size : Nat) : Int)) ∨
      ∃ k, k < 32 ∧ n.toNat.size = d.toNat.size + k ∧
        BitVec.ofInt 32 (((32 - (highWord d).toNat.size : Nat) : Int) -
          ((32 - (highWord n).toNat.size : Nat) : Int)) = BitVec.ofNat 32 k := by
  have hnSize := size_of_high hn
  have hdSize := size_of_high hd
  have hnLe := size_le_width (highWord n)
  have hdLe := size_le_width (highWord d)
  have hdPos := Nat.size_pos.2 (toNat_pos hd)
  rcases Nat.lt_or_ge (highWord n).toNat.size (highWord d).toNat.size with hlt | hge
  · refine Or.inl ⟨lt_of_size_lt (by omega), ?_⟩
    rw [BitVec.lt_def, BitVec.toNat_ofNat, BitVec.toNat_ofInt]
    omega
  · refine Or.inr ⟨(highWord n).toNat.size - (highWord d).toNat.size, by omega, by omega, ?_⟩
    rw [← BitVec.ofInt_natCast]
    congr 1
    omega

/-- A word of one bit is one, and one is a power of two. -/
theorem one_lt_size {x : BitVec 32} (hx : x ≠ 0#32) (h : x &&& (x - 1#32) ≠ 0#32) :
    1 < x.toNat.size := by
  have hpos := toNat_pos hx
  by_contra hle
  have hlt : x.toNat < 2 ^ 1 := Nat.size_le.1 (by omega)
  obtain rfl : x = 1#32 := BitVec.eq_of_toNat_eq (show x.toNat = 1 by omega)
  exact h rfl

theorem succ_toNat {k : Nat} (hk : k < 32) : (BitVec.ofNat 32 k + 1#32).toNat = k + 1 := by
  rw [BitVec.toNat_add, BitVec.toNat_ofNat, BitVec.toNat_ofNat]
  omega

theorem startHighDivisor_ok {n d : BitVec 64} (rem : Bool) (hd : d ≠ 0#64)
    (hn : highWord n ≠ 0#32) (hl : lowWord d = 0#32) :
    ∃ s, startHighDivisor n d rem = .ok s ∧ s.Correct n d rem := by
  have hnNat := toNat_halves n
  have hdNat := toNat_halves d
  rw [hl, BitVec.toNat_zero, Nat.add_zero] at hdNat
  have hh : highWord d ≠ 0#32 := by
    intro h
    rw [h, BitVec.toNat_zero, Nat.zero_mul] at hdNat
    exact hd (BitVec.eq_of_toNat_eq hdNat)
  have hpos := toNat_pos hh
  have hlow := (lowWord n).isLt
  -- Division by a multiple of `2 ^ 32` leaves the lower half as it is.
  have hdiv : (n / d).toNat = (highWord n).toNat / (highWord d).toNat := by
    rw [BitVec.toNat_udiv, hdNat, Nat.mul_comm, ← Nat.div_div_eq_div_mul, ← highWord_toNat]
  have hmod : (n % d).toNat =
      (highWord n).toNat % (highWord d).toNat * 2 ^ 32 + (lowWord n).toNat := by
    rw [BitVec.toNat_umod, hdNat, Nat.mul_comm (highWord d).toNat, Nat.mod_mul, ← highWord_toNat,
      ← lowWord_toNat]
    ring
  unfold startHighDivisor
  rw [if_neg hh]
  split_ifs with hzero hpow
  · rw [umod_ok _ hpos, udiv_ok _ hpos, map_ok, store_ok, ok_bind, ok_bind]
    refine ⟨_, rfl, ?_, ?_⟩
    · apply BitVec.eq_of_toNat_eq
      rw [hdiv, Bits.toNat_append, BitVec.toNat_zero, BitVec.toNat_udiv, Nat.zero_mul, Nat.zero_add]
    · have hrem : (highWord n % highWord d) ++ 0#32 = n % d := by
        apply BitVec.eq_of_toNat_eq
        rw [hmod, Bits.toNat_append, BitVec.toNat_umod, hzero]
      rw [hrem]
  · obtain ⟨j, hj, hpred⟩ := exists_two_pow hh hpow
    have hlt : j < 32 := (Nat.pow_lt_pow_iff_right (by decide)).1 (hj ▸ (highWord d).isLt)
    rw [pure_eq_ok, store_ok, ok_bind, ctz_ok hj, ok_bind, shr_ok _ rfl hlt, ok_bind]
    refine ⟨_, rfl, ?_, ?_⟩
    · apply BitVec.eq_of_toNat_eq
      rw [hdiv, Bits.toNat_append, BitVec.toNat_zero, Bits.toNat_shiftRight, hj, Nat.zero_mul,
        Nat.zero_add]
    · have hrem : (highWord n &&& (highWord d - 1#32)) ++ lowWord n = n % d := by
        apply BitVec.eq_of_toNat_eq
        rw [hmod, Bits.toNat_append, Bits.toNat_and_lowMask hpred, hj]
      rw [hrem]
  · rw [clz_size hh, ok_bind, clz_size hn, ok_bind]
    dsimp only
    rcases highCount hn hh with ⟨hlt, hcount⟩ | ⟨k, hk, hsize, hcount⟩
    · have hlarge := BitVec.lt_trans (show 30#32 < 31#32 by decide) hcount
      rw [if_pos hlarge, pure_eq_ok, store_ok, ok_bind]
      exact ⟨_, rfl, Start.correct_of_lt rem hlt⟩
    · have hsmall : k < 31 := by
        have := one_lt_size hh hpow
        have := size_of_high hn
        have := size_of_high hh
        have := size_le_width (highWord n)
        omega
      have hsucc := succ_toNat hk
      obtain ⟨t, ht, hsplit⟩ := splitBelow_ok (n := n) hsucc (by omega) (by omega)
      have hle : ¬ BitVec.ofNat 32 k > 30#32 := by
        rw [gt_iff_lt, BitVec.lt_def, BitVec.toNat_ofNat, BitVec.toNat_ofNat]
        omega
      rw [hcount, if_neg hle, ht, ok_bind]
      exact ⟨_, rfl, by omega, by omega, hsucc.symm ▸ hsplit⟩

theorem startLowDivisor_ok {n d : BitVec 64} (rem : Bool) (hn : highWord n ≠ 0#32)
    (hl : lowWord d ≠ 0#32) (hh : highWord d = 0#32) :
    ∃ s, startLowDivisor n d rem = .ok s ∧ s.Correct n d rem := by
  have hdNat := toNat_of_narrow hh
  unfold startLowDivisor
  by_cases hpow : lowWord d &&& (lowWord d - 1#32) = 0#32
  · obtain ⟨j, hj, hpred⟩ := exists_two_pow hl hpow
    have hlt : j < 32 := (Nat.pow_lt_pow_iff_right (by decide)).1 (hj ▸ (lowWord d).isLt)
    have hrem : 0#32 ++ (lowWord n &&& (lowWord d - 1#32)) = n % d := by
      apply BitVec.eq_of_toNat_eq
      rw [Bits.toNat_append, BitVec.toNat_zero, Nat.zero_mul, Nat.zero_add,
        Bits.toNat_and_lowMask hpred, lowWord_toNat, BitVec.toNat_umod, hdNat, hj,
        Nat.mod_mod_of_dvd _ (Nat.pow_dvd_pow 2 (Nat.le_of_lt hlt))]
    have hdiv : n / d = n >>> j := by
      apply BitVec.eq_of_toNat_eq
      rw [BitVec.toNat_udiv, Bits.toNat_shiftRight, hdNat, hj]
    rw [if_pos hpow, pure_eq_ok, store_ok, ok_bind, hrem]
    by_cases hone : lowWord d = 1#32
    · obtain rfl : j = 0 := by
        rw [hone] at hj
        exact Nat.pow_right_injective (Nat.le_refl 2) (hj.symm.trans rfl)
      rw [if_pos hone]
      exact ⟨_, rfl, by rw [hdiv, BitVec.ushiftRight_zero], rfl⟩
    · have hjpos : 0 < j := by
        apply Nat.pos_of_ne_zero
        rintro rfl
        exact hone (BitVec.eq_of_toNat_eq hj)
      have hright := append_shiftRight (highWord n) (lowWord n) hjpos hlt
      rw [high_append_low] at hright
      rw [if_neg hone, ctz_ok hj, ok_bind, shr_ok _ rfl hlt, ok_bind,
        shl_ok _ (k := 32 - j) (by omega) (by omega), ok_bind, shr_ok _ rfl hlt, ok_bind]
      exact ⟨_, rfl, hright.trans hdiv.symm, rfl⟩
  · have hdSize := one_lt_size hl hpow
    have hnSize := size_of_high hn
    have hnLe := size_le_width (highWord n)
    have hdLe := size_le_width (lowWord d)
    have hnPos := Nat.size_pos.2 (toNat_pos hn)
    rw [if_neg hpow, clz_size hl, ok_bind, clz_size hn, ok_bind]
    dsimp only
    generalize hsr : BitVec.ofInt 32 (1 + 32 + ((32 - (lowWord d).toNat.size : Nat) : Int) -
      ((32 - (highWord n).toNat.size : Nat) : Int)) = sr
    have hcount : n.toNat.size + 1 = d.toNat.size + sr.toNat := by
      rw [← hsr, BitVec.toNat_ofInt, hdNat]
      omega
    rw [hdNat] at hcount
    by_cases heq : sr = 32#32
    · rw [if_pos heq]
      refine ⟨_, rfl, by rw [heq]; decide, hdNat ▸ hcount, ?_⟩
      rw [heq]
      exact splitAt_split n
    · rw [if_neg heq]
      have hne : sr.toNat ≠ 32 := fun h => heq (BitVec.eq_of_toNat_eq h)
      rcases Nat.lt_or_ge sr.toNat 32 with hlt | hge
      · obtain ⟨t, ht, hsplit⟩ := splitBelow_ok (n := n) (Eq.refl sr.toNat) (by omega) hlt
        rw [if_pos (BitVec.lt_def.2 hlt), ht, ok_bind]
        exact ⟨_, rfl, by omega, hdNat ▸ hcount, hsplit⟩
      · obtain ⟨t, ht, hsplit⟩ := splitAbove_ok (n := n) (Eq.refl sr.toNat) (by omega) (by omega)
        have hnot : ¬ sr < 32#32 := fun h => absurd (BitVec.lt_def.1 h) (Nat.not_lt.2 hge)
        rw [if_neg hnot, ht, ok_bind]
        exact ⟨_, rfl, by omega, hdNat ▸ hcount, hsplit⟩

theorem startWide_ok {n d : BitVec 64} (rem : Bool) (hn : highWord n ≠ 0#32)
    (hh : highWord d ≠ 0#32) : ∃ s, startWide n d rem = .ok s ∧ s.Correct n d rem := by
  unfold startWide
  rw [clz_size hh, ok_bind, clz_size hn, ok_bind]
  dsimp only
  rcases highCount hn hh with ⟨hlt, hcount⟩ | ⟨k, hk, hsize, hcount⟩
  · rw [if_pos hcount, pure_eq_ok, store_ok, ok_bind]
    exact ⟨_, rfl, Start.correct_of_lt rem hlt⟩
  · have hle : ¬ BitVec.ofNat 32 k > 31#32 := by
      rw [gt_iff_lt, BitVec.lt_def, BitVec.toNat_ofNat, BitVec.toNat_ofNat]
      omega
    have hsucc := succ_toNat hk
    rw [hcount, if_neg hle]
    generalize BitVec.ofNat 32 k + 1#32 = sr at *
    split_ifs with heq
    · refine ⟨_, rfl, by omega, by omega, ?_⟩
      rw [heq]
      exact splitAt_split n
    · have hne : sr.toNat ≠ 32 := fun h => heq (BitVec.eq_of_toNat_eq h)
      obtain ⟨t, ht, hsplit⟩ := splitBelow_ok (n := n) (Eq.refl sr.toNat) (by omega) (by omega)
      rw [ht, ok_bind]
      exact ⟨_, rfl, by omega, by omega, hsplit⟩

theorem start_ok {n d : BitVec 64} (rem : Bool) (hd : d ≠ 0#64) :
    ∃ s, start n d rem = .ok s ∧ s.Correct n d rem := by
  unfold start
  split_ifs with hn hl hh
  · exact startNarrow_ok rem hd hn
  · exact startHighDivisor_ok rem hd hn hl
  · exact startLowDivisor_ok rem hn hl hh
  · exact startWide_ok rem hn hh

/-! ## Correctness -/

/-- `__udivmoddi4` returns the quotient, and stores the remainder if there is a
place for it. -/
theorem udivmoddi4_ok {a b : BitVec 64} (hb : b ≠ 0#64) (rem : Bool) :
    udivmoddi4 a b rem = .ok (a / b, if rem then some (a % b) else none) := by
  obtain ⟨s, hs, hcorrect⟩ := start_ok (n := a) rem hb
  rw [udivmoddi4, hs, ok_bind]
  cases s with
  | exit q r =>
    rw [hcorrect.1, hcorrect.2]
    rfl
  | loop sr t =>
    obtain ⟨hpos, hsize, hsplit⟩ := hcorrect
    have hall := Words.all_shiftSubtractLoop b sr.toNat t
    have hresult := shiftSubtractLoop_ok (n := a) (toNat_pos hb) hsize hpos
    dsimp only at hresult
    rw [← hsplit, ← hall] at hresult
    dsimp only
    generalize Words.shiftSubtractLoop b sr.toNat t = t' at *
    rw [pure_eq_ok, store_ok, ok_bind, show t'.rHigh ++ t'.rLow = a % b from hresult.2,
      show (t'.qHigh ++ t'.qLow) <<< 1 ||| t'.carry.setWidth 64 = a / b from hresult.1, pure_eq_ok]

/-- `__udivmoddi4`, with its special cases and its halves, agrees with the plain loop
of `int_div_impl.inc` on whole words, with and without a place for the remainder. -/
theorem udivmoddi4_eq_plain {a b : BitVec 64} (hb : b ≠ 0#64) :
    ∃ q r, udivdi3 a b = .ok q ∧ umoddi3 a b = .ok r ∧
      udivmoddi4 a b true = .ok (q, some r) ∧ udivmoddi4 a b false = .ok (q, none) := by
  obtain ⟨hdiv, hmod⟩ := divXi3_ok (n := a) (by decide) hb
  exact ⟨a / b, a % b, hdiv, hmod, udivmoddi4_ok hb true, udivmoddi4_ok hb false⟩

/-- A divisor of two words, which no special case takes. -/
theorem udivmoddi4_eq_plain_wide :
    0x100000003#64 ≠ 0#64 ∧ ∃ q r,
      udivdi3 0xFFFFFFFFFFFFFFFF#64 0x100000003#64 = .ok q ∧
      umoddi3 0xFFFFFFFFFFFFFFFF#64 0x100000003#64 = .ok r ∧
      udivmoddi4 0xFFFFFFFFFFFFFFFF#64 0x100000003#64 true = .ok (q, some r) ∧
      udivmoddi4 0xFFFFFFFFFFFFFFFF#64 0x100000003#64 false = .ok (q, none) :=
  ⟨by decide, udivmoddi4_eq_plain (by decide)⟩

end Cheesecloth.Builtins.IntDiv
