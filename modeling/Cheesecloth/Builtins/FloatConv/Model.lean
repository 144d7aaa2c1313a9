import Cheesecloth.Builtins.SoftFloat.FpAdd
import Cheesecloth.Builtins.SoftFloat.FpMul

/-!
# The model of the 64-bit integer conversions

`floatdidf.c`, `floatundidf.c`, `floatdisf.c` and `floatundisf.c`, which the
source list of this tree builds for x86_64 in place of
`x86_64/floatdidf.c`, `x86_64/floatundidf.S`, `x86_64/floatdisf.c` and
`x86_64/floatundisf.S`.

* `floatdidfSoft`, `floatundidfSoft`, `floatdisf` and `floatundisf` are the
  integer-only bodies.  They share one shift, sticky and round sequence
  (`roundToMantissa`) and differ in the mantissa width, in the signedness of
  the shifts and in the packing.
* `floatdidf` and `floatundidf` are the bodies for hardware floating point,
  which an x86_64 triple selects.  Every double operation of theirs is the
  soft-float routine of this library: `floatsidf`, `muldf3`, `subdf3`,
  `adddf3`.
* `replacedFloatdisf` and `replacedFloatundisf` are the x86_64 routines that
  the single-precision ones replace, over the two instructions they use.

Signed overflow (`-a` and `(a ^ s) - s` of the least integer) wraps.
-/

namespace Cheesecloth.Builtins.FloatConv

open CodeLib CodeLib.Checked SoftFloat

/-! ## The double-precision routines -/

/-- `__adddf3`. -/
def adddf3 (a b : BitVec 64) : Checked (BitVec 64) := addXf3 (P := .double) a b

/-- `__subdf3`. -/
def subdf3 (a b : BitVec 64) : Checked (BitVec 64) := subXf3 (P := .double) a b

/-- `__muldf3`. -/
def muldf3 (a b : BitVec 64) : Checked (BitVec 64) := mulXf3 (P := .double) a b

/-- The end of `__floatsidf`, once the sign and the absolute value are
known. -/
def floatsidfAbs (sign : BitVec 64) (a : BitVec 32) : Checked (BitVec 64) := do
  let implicitBit : BitVec 64 := Precision.double.implicitBit
  let exponent := (32 - 1) - (← clz a)
  let shift := Precision.double.significandBits - exponent
  let result := (← shl (a.setWidth 64) shift) ^^^ implicitBit
  let result := result +
    BitVec.ofInt 64 (exponent + Precision.double.exponentBias) <<< Precision.double.significandBits
  return result ||| sign

/-- `__floatsidf`. -/
def floatsidf (a : BitVec 32) : Checked (BitVec 64) :=
  if a = 0#32 then
    return 0#64
  else if a.slt 0#32 then
    floatsidfAbs Precision.double.signBit (-a)
  else
    floatsidfAbs 0#64 a

/-! ## The bodies for hardware floating point -/

/-- `4503599627370496.0`, `0x1.0p52`. -/
def twop52 : BitVec 64 := 0x4330000000000000#64

/-- `4294967296.0`, `0x1.0p32`. -/
def twop32 : BitVec 64 := 0x41F0000000000000#64

/-- `19342813113834066795298816.0`, `0x1.0p84`. -/
def twop84 : BitVec 64 := 0x4530000000000000#64

/-- `19342813118337666422669312.0`, `0x1.00000001p84`. -/
def twop84PlusTwop52 : BitVec 64 := 0x4530000000100000#64

/-- `__floatdidf` without `__SOFTFP__`. -/
def floatdidf (a : BitVec 64) : Checked (BitVec 64) := do
  let high ← muldf3 (← floatsidf ((a.sshiftRight 32).setWidth 32)) twop32
  let low := twop52 ||| (a &&& 0x00000000ffffffff#64)
  adddf3 (← subdf3 high twop52) low

/-- `__floatundidf` without `__SOFTFP__`. -/
def floatundidf (a : BitVec 64) : Checked (BitVec 64) := do
  let high := twop84 ||| (a >>> 32)
  let low := twop52 ||| (a &&& 0x00000000ffffffff#64)
  adddf3 (← subdf3 high twop84PlusTwop52) low

/-! ## The integer-only bodies -/

/-- The `switch (sd)`: `a` with two bits below the mantissa, the lower one of
which collects the dropped bits. -/
def collectDropped (mantDig sd : Int) (a : BitVec 64) : Checked (BitVec 64) :=
  if sd = mantDig + 1 then
    shl a 1
  else if sd = mantDig + 2 then
    return a
  else do
    let kept ← shr a (sd - (mantDig + 2))
    let mask ← shr (BitVec.allOnes 64) (64 + mantDig + 2 - sd)
    return kept ||| if decide (a &&& mask ≠ 0#64) then 1#64 else 0#64

/-- The part that the four bodies share: the leading `mantDig` bits of `a`,
rounded, and the exponent `e`.  `shiftRight` is `>>` on the type of `a`. -/
def roundToMantissa (shiftRight : BitVec 64 → Int → Checked (BitVec 64)) (mantDig : Int)
    (a : BitVec 64) : Checked (BitVec 64 × Int) := do
  let sd := 64 - (← clz a)
  let e := sd - 1
  if sd > mantDig then
    let a ← collectDropped mantDig sd a
    let a := a ||| if decide (a &&& 4#64 ≠ 0#64) then 1#64 else 0#64
    let a := a + 1#64
    let a ← shiftRight a 2
    if a &&& (← shl 1#64 mantDig) ≠ 0#64 then
      return (← shiftRight a 1, e + 1)
    else
      return (a, e)
  else
    return (← shl a (mantDig - sd), e)

/-- The two words of `double_bits`.  The unsigned bodies have no sign term. -/
def doubleBits (shiftRight : BitVec 64 → Int → Checked (BitVec 64)) (sign : BitVec 32) (e : Int)
    (a : BitVec 64) : Checked (BitVec 64) := do
  let high := sign ||| BitVec.ofInt 32 (e + 1023) <<< 20 |||
    ((← shiftRight a 32).setWidth 32 &&& 0x000FFFFF#32)
  let low : BitVec 32 := a.setWidth 32
  return (high ++ low : BitVec 64)

/-- The word of `float_bits`. -/
def floatBits (sign : BitVec 32) (e : Int) (a : BitVec 64) : BitVec 32 :=
  sign ||| BitVec.ofInt 32 (e + 127) <<< 23 ||| (a.setWidth 32 &&& 0x007FFFFF#32)

/-- `__floatdidf` with `__SOFTFP__`. -/
def floatdidfSoft (a : BitVec 64) : Checked (BitVec 64) :=
  if a = 0#64 then
    return 0#64
  else do
    let s ← sar a (64 - 1)
    let (a, e) ← roundToMantissa sar 53 ((a ^^^ s) - s)
    doubleBits sar (s.setWidth 32 &&& 0x80000000#32) e a

/-- `__floatundidf` with `__SOFTFP__`. -/
def floatundidfSoft (a : BitVec 64) : Checked (BitVec 64) :=
  if a = 0#64 then
    return 0#64
  else do
    let (a, e) ← roundToMantissa shr 53 a
    doubleBits shr 0#32 e a

/-- `__floatdisf`. -/
def floatdisf (a : BitVec 64) : Checked (BitVec 32) :=
  if a = 0#64 then
    return 0#32
  else do
    let s ← sar a (64 - 1)
    let (a, e) ← roundToMantissa sar 24 ((a ^^^ s) - s)
    return floatBits (s.setWidth 32 &&& 0x80000000#32) e a

/-- `__floatundisf`. -/
def floatundisf (a : BitVec 64) : Checked (BitVec 32) :=
  if a = 0#64 then
    return 0#32
  else do
    let (a, e) ← roundToMantissa shr 24 a
    return floatBits 0#32 e a

/-! ## The replaced single-precision routines -/

/-- The two instructions of the replaced routines: the conversion of a signed
64-bit integer, and the product of two floats. -/
structure Sse where
  cvtsi2ss : BitVec 64 → BitVec 32
  mulss : BitVec 32 → BitVec 32 → BitVec 32

/-- `two`, `.single 2.0`. -/
def two : BitVec 32 := 0x40000000#32

/-- `__floatdisf` of `x86_64/floatdisf.c`: `(float)a`. -/
def replacedFloatdisf (cpu : Sse) (a : BitVec 64) : BitVec 32 := cpu.cvtsi2ss a

/-- `__floatundisf` of `x86_64/floatundisf.S`. -/
def replacedFloatundisf (cpu : Sse) (rdi : BitVec 64) : BitVec 32 :=
  let rsi := 1#64
  if rdi.msb then
    let rsi := rdi &&& rsi
    let rdi := rdi >>> 1
    let rdi := rsi ||| rdi
    cpu.mulss (cpu.cvtsi2ss rdi) two
  else
    cpu.cvtsi2ss rdi

end Cheesecloth.Builtins.FloatConv
