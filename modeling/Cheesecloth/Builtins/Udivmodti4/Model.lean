import Cheesecloth.CodeLib.Bits
import Cheesecloth.CodeLib.WhileBreak

/-!
# The model of `udivmodti4.c`

`__udivmodti4` divides 128-bit unsigned integers.  This file transcribes it,
together with `udiv128by64to64default`, the portable division of a 128-bit
dividend by a 64-bit divisor.  The assembly branch of `udiv128by64to64` is
behind `#if 0 &&` in this tree, so the portable body is the one that runs.

Words are `BitVec 64` and `BitVec 128`, whose arithmetic wraps as `du_int` and
`tu_int` do.  Shifts, divisions and `__builtin_clzll` are the checked
operations of `CodeLib.Checked`.

`udiv128by64to64default` is defined through `udiv128by64to64defaultLocals`,
which answers every local variable at the point of the return, and for each of
the two `while` loops the run of the loop.
-/

namespace Cheesecloth.Builtins.Udivmodti4

open CodeLib CodeLib.Checked

/-! ## The portable division of 128 bits by 64 bits -/

/-- `n_udword_bits`. -/
def nUdwordBits : Int := 64

/-- The number base `b` of the quotient digits, `1ULL << 32`. -/
def base : BitVec 64 := 0x100000000#64

/-- The two variables that a digit correction loop updates: the quotient digit
and `rhat`. -/
structure Digit where
  q : BitVec 64
  rhat : BitVec 64
  deriving DecidableEq, Repr

/-- The correction loop of a quotient digit.  `un` is the dividend digit of
the loop, `un1` for the first and `un0` for the second. -/
def correction (vn1 vn0 un : BitVec 64) : WhileBreak Digit where
  test d := decide (d.q ≥ base) || decide (d.q * vn0 > base * d.rhat + un)
  body d := ⟨d.q - 1#64, d.rhat + vn1⟩
  brk d := decide (d.rhat ≥ base)

/-- A bound on the evaluations of one loop test.  Each iteration adds `vn1` to
`rhat`, and the loop breaks when `rhat` reaches the base. -/
def loopFuel : Nat := 0x100000001

/-- The local variables of `udiv128by64to64default` at its return.  `v` is
the normalised divisor, `loop1` and `loop0` are the runs of the two `while`
loops, `r` is the value stored through the pointer `r`, and `result` is the
value returned. -/
structure Locals where
  s : Int
  v : BitVec 64
  un64 : BitVec 64
  un10 : BitVec 64
  vn1 : BitVec 64
  vn0 : BitVec 64
  un1 : BitVec 64
  un0 : BitVec 64
  loop1 : LoopRun Digit
  un21 : BitVec 64
  loop0 : LoopRun Digit
  r : BitVec 64
  result : BitVec 64
  deriving DecidableEq, Repr

/-- Normalisation: the shifted divisor, and the dividend shifted by the same
count as the pair `un64`, `un10`. -/
def normalise (u1 u0 v : BitVec 64) (s : Int) :
    Checked (BitVec 64 × BitVec 64 × BitVec 64) :=
  if s > 0 then do
    let v ← shl v s
    let un64 := (← shl u1 s) ||| (← shr u0 (nUdwordBits - s))
    let un10 ← shl u0 s
    return (v, un64, un10)
  else
    -- the source avoids `u0 >> 64` here
    return (v, u1, u0)

/-- The rest of the body, from the normalised divisor and dividend on. -/
def divideNormalised (s : Int) (v un64 un10 : BitVec 64) : Checked Locals := do
  let vn1 ← shr v (nUdwordBits / 2)
  let vn0 := v &&& 0xFFFFFFFF#64
  let un1 ← shr un10 (nUdwordBits / 2)
  let un0 := un10 &&& 0xFFFFFFFF#64
  -- the first quotient digit
  let q1 ← udiv un64 vn1
  let loop1 ← (correction vn1 vn0 un1).run loopFuel ⟨q1, un64 - q1 * vn1⟩
  let un21 := un64 * base + un1 - loop1.final.q * v
  -- the second quotient digit
  let q0 ← udiv un21 vn1
  let loop0 ← (correction vn1 vn0 un0).run loopFuel ⟨q0, un21 - q0 * vn1⟩
  let r ← shr (un21 * base + un0 - loop0.final.q * v) s
  return { s, v, un64, un10, vn1, vn0, un1, un0, loop1, un21, loop0, r,
           result := loop1.final.q * base + loop0.final.q }

/-- The body of `udiv128by64to64default`. -/
def udiv128by64to64defaultLocals (u1 u0 v : BitVec 64) : Checked Locals := do
  let s ← clz v
  let (v, un64, un10) ← normalise u1 u0 v s
  divideNormalised s v un64 un10

/-- `udiv128by64to64default`: the quotient that is returned and the remainder
stored through `r`. -/
def udiv128by64to64default (u1 u0 v : BitVec 64) : Checked (BitVec 64 × BitVec 64) := do
  let l ← udiv128by64to64defaultLocals u1 u0 v
  return (l.result, l.r)

/-- `udiv128by64to64`, with its `divq` branch disabled. -/
def udiv128by64to64 (u1 u0 v : BitVec 64) : Checked (BitVec 64 × BitVec 64) :=
  udiv128by64to64default u1 u0 v

/-! ## The division of 128 bits by 128 bits -/

/-- The `s.high` member of `utwords`. -/
def high (x : BitVec 128) : BitVec 64 := x.extractLsb' 64 64

/-- The `s.low` member of `utwords`. -/
def low (x : BitVec 128) : BitVec 64 := x.extractLsb' 0 64

/-- A `utwords` from its two members. -/
def utwords (high low : BitVec 64) : BitVec 128 := high ++ low

theorem high_toNat (x : BitVec 128) : (high x).toNat = x.toNat / 2 ^ 64 :=
  Bits.toNat_extractHigh (v := 64) (w := 64) x

theorem low_toNat (x : BitVec 128) : (low x).toNat = x.toNat % 2 ^ 64 :=
  Bits.toNat_extractLow (v := 64) (w := 64) x

theorem utwords_toNat (h l : BitVec 64) :
    (utwords h l).toNat = h.toNat * 2 ^ 64 + l.toNat :=
  Bits.toNat_append h l

/-- A word is its two halves. -/
theorem toNat_halves (x : BitVec 128) :
    x.toNat = (high x).toNat * 2 ^ 64 + (low x).toNat := by
  rw [high_toNat, low_toNat]
  omega

/-- The variables that the shift-and-subtract loop updates, besides `shift`. -/
structure ShiftSub where
  quotientLow : BitVec 64
  dividend : BitVec 128
  divisor : BitVec 128
  deriving DecidableEq, Repr

/-- One iteration of the shift-and-subtract loop. -/
def shiftSubStep (t : ShiftSub) : Checked ShiftSub := do
  let q ← shl t.quotientLow 1
  let s ← sar (t.divisor - t.dividend - 1#128) (128 - 1)
  let q := q ||| low (s &&& 1#128)
  let dividend := t.dividend - (t.divisor &&& s)
  let divisor ← shr t.divisor 1
  return ⟨q, dividend, divisor⟩

/-- `for (; shift >= 0; --shift)`, by the number of values `shift` takes. -/
def shiftSubLoop : Nat → ShiftSub → Checked ShiftSub
  | 0, t => .ok t
  | n + 1, t => do
    let t ← shiftSubStep t
    shiftSubLoop n t

/-- `*rem = x` if `rem` is not null. -/
def store (rem : Bool) (x : BitVec 128) : Option (BitVec 128) :=
  if rem then some x else none

/-- `__udivmodti4`: the quotient that is returned and the value stored through
`rem`.  The argument `rem` says whether the pointer is not null. -/
def udivmodti4 (a b : BitVec 128) (rem : Bool) :
    Checked (BitVec 128 × Option (BitVec 128)) :=
  if b > a then
    return (0#128, store rem a)
  else if high b = 0#64 then
    if high a < low b then do
      let (q, r) ← udiv128by64to64 (high a) (low a) (low b)
      return (utwords 0#64 q, store rem (utwords 0#64 r))
    else do
      let quotientHigh ← udiv (high a) (low b)
      let dividendHigh ← umod (high a) (low b)
      let (q, r) ← udiv128by64to64 dividendHigh (low a) (low b)
      return (utwords quotientHigh q, store rem (utwords 0#64 r))
  else do
    let shift := (← clz (high b)) - (← clz (high a))
    let divisor ← shl b shift
    let t ← shiftSubLoop (shift + 1).toNat ⟨0#64, a, divisor⟩
    return (utwords 0#64 t.quotientLow, store rem t.dividend)

end Cheesecloth.Builtins.Udivmodti4
