import Cheesecloth.Builtins.IntDiv.Udivmoddi4
import Cheesecloth.Builtins.Udivmodti4.Correct

/-!
# The signed divisions

`__divXi3` and `__modXi3` of `int_div_impl.inc` and the `__divmodXi4` routines, at
32, 64 and 128 bits.  Each takes the signs off, divides without signs, and puts the
sign of the result back, all without a branch.

The unsigned division under them differs by the width: the operator of C at 32 bits,
`__udivmoddi4` at 64 and `__udivmodti4` at 128.

Signed overflow (`(a ^ s_a) - s_a` of the least integer, and the product in
`__modsi3`) wraps.

* `signed_division`: the routines of one width agree with each other.  The remainder
  is the one of the truncated quotient, and the quotient is truncated and wraps.
-/

namespace Cheesecloth.Builtins.IntDiv

open CodeLib CodeLib.Checked

variable {w : Nat}

/-! ## The routines -/

/-- `__udivti3`. -/
def udivti3 (a b : BitVec 128) : Checked (BitVec 128) := do
  return (← Udivmodti4.udivmodti4 a b false).1

/-- `__divXi3`, by its `COMPUTE_UDIV`. -/
def divXi3 (computeUdiv : BitVec w → BitVec w → Checked (BitVec w)) (a b : BitVec w) :
    Checked (BitVec w) := do
  let s_a := a.sshiftRight (w - 1)
  let s_b := b.sshiftRight (w - 1)
  let a_u := (a ^^^ s_a) + -s_a
  let b_u := (b ^^^ s_b) + -s_b
  let s_a := s_a ^^^ s_b
  return ((← computeUdiv a_u b_u) ^^^ s_a) + -s_a

/-- `__modXi3`, by its `ASSIGN_UMOD`. -/
def modXi3 (assignUmod : BitVec w → BitVec w → Checked (BitVec w)) (a b : BitVec w) :
    Checked (BitVec w) := do
  let s := b.sshiftRight (w - 1)
  let b_u := (b ^^^ s) + -s
  let s := a.sshiftRight (w - 1)
  let a_u := (a ^^^ s) + -s
  let res ← assignUmod a_u b_u
  return (res ^^^ s) + -s

/-- `__divmodsi4`, `__divmoddi4` and `__divmodti4`, by the unsigned routine that they
call: the quotient that is returned and the value stored through `rem`. -/
def divmodXi4 (udivmod : BitVec w → BitVec w → Checked (BitVec w × BitVec w)) (a b : BitVec w) :
    Checked (BitVec w × BitVec w) := do
  let s_a := a.sshiftRight (w - 1)
  let s_b := b.sshiftRight (w - 1)
  let a := (a ^^^ s_a) - s_a
  let b := (b ^^^ s_b) - s_b
  let s_b := s_b ^^^ s_a
  let (q, r) ← udivmod a b
  return ((q ^^^ s_b) - s_b, (r ^^^ s_a) - s_a)

/-- `__udivmoddi4` with a place for the remainder.  The routine stores it on every
path, so that the default is not read. -/
def udivmoddi4Rem (a b : BitVec 64) : Checked (BitVec 64 × BitVec 64) := do
  let (q, r) ← udivmoddi4 a b true
  return (q, r.getD 0#64)

/-- `__udivmodti4` with a place for the remainder. -/
def udivmodti4Rem (a b : BitVec 128) : Checked (BitVec 128 × BitVec 128) := do
  let (q, r) ← Udivmodti4.udivmodti4 a b true
  return (q, r.getD 0#128)

/-- `__umodti3`. -/
def umodti3 (a b : BitVec 128) : Checked (BitVec 128) := Prod.snd <$> udivmodti4Rem a b

/-- `__divsi3`. -/
def divsi3 (a b : BitVec 32) : Checked (BitVec 32) := divXi3 udiv a b

/-- `__divdi3`. -/
def divdi3 (a b : BitVec 64) : Checked (BitVec 64) :=
  divXi3 (fun a b => Prod.fst <$> udivmoddi4 a b false) a b

/-- `__divti3`. -/
def divti3 (a b : BitVec 128) : Checked (BitVec 128) := divXi3 udivti3 a b

/-- `__modsi3`. -/
def modsi3 (a b : BitVec 32) : Checked (BitVec 32) := do
  return a - (← divsi3 a b) * b

/-- `__moddi3`. -/
def moddi3 (a b : BitVec 64) : Checked (BitVec 64) :=
  modXi3 (fun a b => Prod.snd <$> udivmoddi4Rem a b) a b

/-- `__modti3`. -/
def modti3 (a b : BitVec 128) : Checked (BitVec 128) := modXi3 umodti3 a b

/-- `__divmodsi4`. -/
def divmodsi4 (a b : BitVec 32) : Checked (BitVec 32 × BitVec 32) := divmodXi4 udivmodsi4 a b

/-- `__divmoddi4`. -/
def divmoddi4 (a b : BitVec 64) : Checked (BitVec 64 × BitVec 64) := divmodXi4 udivmoddi4Rem a b

/-- `__divmodti4`. -/
def divmodti4 (a b : BitVec 128) : Checked (BitVec 128 × BitVec 128) :=
  divmodXi4 udivmodti4Rem a b

/-! ## The sign -/

/-- The word of a sign, `-1` or `0`. -/
def signWord (w : Nat) (negative : Bool) : BitVec w :=
  if negative then BitVec.allOnes w else 0#w

theorem sshiftRight_last (x : BitVec w) : x.sshiftRight (w - 1) = signWord w x.msb := by
  unfold signWord
  by_cases h : 2 ^ (w - 1) ≤ x.toNat
  · rw [Bits.signMask_of_msb h, BitVec.msb_eq_decide, decide_eq_true h, if_pos rfl]
  · rw [Bits.signMask_of_not_msb (by omega), BitVec.msb_eq_decide, decide_eq_false h]
    rfl

theorem signWord_xor (s t : Bool) : signWord w s ^^^ signWord w t = signWord w (s ^^ t) := by
  cases s <;> cases t <;> simp [signWord]

/-- `negate if s == -1`. -/
theorem xor_sub_signWord (x : BitVec w) (s : Bool) :
    (x ^^^ signWord w s) - signWord w s = if s then -x else x := by
  cases s with
  | false => simp [signWord]
  | true =>
    rw [signWord, if_pos rfl, BitVec.xor_allOnes, ← BitVec.neg_one_eq_allOnes, if_pos rfl,
      BitVec.sub_neg, BitVec.neg_eq_not_add]

theorem xor_add_neg_signWord (x : BitVec w) (s : Bool) :
    (x ^^^ signWord w s) + -signWord w s = if s then -x else x := by
  rw [← BitVec.sub_eq_add_neg, xor_sub_signWord]

/-- The absolute value of a divisor other than zero is not zero. -/
theorem abs_ne_zero {b : BitVec w} (hb : b ≠ 0#w) (s : Bool) : (if s then -b else b) ≠ 0#w := by
  cases s with
  | false => exact hb
  | true =>
    rw [if_pos rfl]
    intro h
    exact hb (by rw [← BitVec.neg_neg (x := b), h, BitVec.neg_zero])

/-! ## Any unsigned division -/

section Generic

variable {a b : BitVec w}

theorem sdiv_eq_abs : (if (a.msb ^^ b.msb) then
      -((if a.msb then -a else a) / (if b.msb then -b else b))
    else (if a.msb then -a else a) / (if b.msb then -b else b)) = a.sdiv b := by
  rw [BitVec.sdiv_eq]
  cases a.msb <;> cases b.msb <;> rfl

theorem srem_eq_abs : (if a.msb then -((if a.msb then -a else a) % (if b.msb then -b else b))
    else (if a.msb then -a else a) % (if b.msb then -b else b)) = a.srem b := by
  rw [BitVec.srem_eq]
  cases a.msb <;> cases b.msb <;> rfl

theorem divXi3_eq {computeUdiv : BitVec w → BitVec w → Checked (BitVec w)}
    (hudiv : ∀ x y, y ≠ 0#w → computeUdiv x y = .ok (x / y)) (hb : b ≠ 0#w) :
    divXi3 computeUdiv a b = .ok (a.sdiv b) := by
  unfold divXi3
  dsimp only
  rw [sshiftRight_last, sshiftRight_last, signWord_xor, xor_add_neg_signWord,
    xor_add_neg_signWord, hudiv _ _ (abs_ne_zero hb _), ok_bind, xor_add_neg_signWord, sdiv_eq_abs]
  rfl

theorem modXi3_eq {assignUmod : BitVec w → BitVec w → Checked (BitVec w)}
    (humod : ∀ x y, y ≠ 0#w → assignUmod x y = .ok (x % y)) (hb : b ≠ 0#w) :
    modXi3 assignUmod a b = .ok (a.srem b) := by
  unfold modXi3
  dsimp only
  rw [sshiftRight_last, sshiftRight_last, xor_add_neg_signWord, xor_add_neg_signWord,
    humod _ _ (abs_ne_zero hb _), ok_bind, xor_add_neg_signWord, srem_eq_abs]
  rfl

theorem divmodXi4_eq {udivmod : BitVec w → BitVec w → Checked (BitVec w × BitVec w)}
    (hudivmod : ∀ x y, y ≠ 0#w → udivmod x y = .ok (x / y, x % y)) (hb : b ≠ 0#w) :
    divmodXi4 udivmod a b = .ok (a.sdiv b, a.srem b) := by
  unfold divmodXi4
  dsimp only
  rw [sshiftRight_last, sshiftRight_last, signWord_xor, xor_sub_signWord, xor_sub_signWord,
    hudivmod _ _ (abs_ne_zero hb _), ok_bind]
  dsimp only
  rw [xor_sub_signWord, xor_sub_signWord, Bool.xor_comm, sdiv_eq_abs, srem_eq_abs]
  rfl

end Generic

/-! ## The unsigned divisions -/

theorem udivmoddi4Rem_ok (a b : BitVec 64) (hb : b ≠ 0#64) :
    udivmoddi4Rem a b = .ok (a / b, a % b) := by
  rw [udivmoddi4Rem, udivmoddi4_ok hb]
  rfl

/-- `__udivmodti4`, with the quotient and the remainder as words. -/
theorem udivmodti4_eq {a b : BitVec 128} (hb : b ≠ 0#128) (rem : Bool) :
    Udivmodti4.udivmodti4 a b rem = .ok (a / b, Udivmodti4.store rem (a % b)) := by
  obtain ⟨q, r, hrun, hq, hr⟩ := Udivmodti4.udivmodti4_spec (a := a) hb rem
  have hquotient : q = a / b := BitVec.eq_of_toNat_eq (by rw [hq, BitVec.toNat_udiv])
  have hremainder : r = a % b := BitVec.eq_of_toNat_eq (by rw [hr, BitVec.toNat_umod])
  rw [hrun, hquotient, hremainder]

theorem udivti3_ok (a b : BitVec 128) (hb : b ≠ 0#128) : udivti3 a b = .ok (a / b) := by
  rw [udivti3, udivmodti4_eq hb]
  rfl

theorem udivmodti4Rem_ok (a b : BitVec 128) (hb : b ≠ 0#128) :
    udivmodti4Rem a b = .ok (a / b, a % b) := by
  rw [udivmodti4Rem, udivmodti4_eq hb]
  rfl

/-! ## The signed divisions -/

/-- The routines of one width agree, and divide toward zero.  Only the quotient of
the least integer by `-1` wraps. -/
def TruncatingDivision (div mod : BitVec w → BitVec w → Checked (BitVec w))
    (divmod : BitVec w → BitVec w → Checked (BitVec w × BitVec w)) : Prop :=
  ∀ a b, b ≠ 0#w → ∃ q r, div a b = .ok q ∧ mod a b = .ok r ∧ divmod a b = .ok (q, r) ∧
    r.toInt = a.toInt.tmod b.toInt ∧
    q.toInt = (a.toInt.tdiv b.toInt).bmod (2 ^ w) ∧
    (a ≠ BitVec.intMin w ∨ b ≠ -1#w → q.toInt = a.toInt.tdiv b.toInt)

theorem TruncatingDivision.of_eq {div mod : BitVec w → BitVec w → Checked (BitVec w)}
    {divmod : BitVec w → BitVec w → Checked (BitVec w × BitVec w)}
    (hdiv : ∀ a b, b ≠ 0#w → div a b = .ok (a.sdiv b))
    (hmod : ∀ a b, b ≠ 0#w → mod a b = .ok (a.srem b))
    (hdivmod : ∀ a b, b ≠ 0#w → divmod a b = .ok (a.sdiv b, a.srem b)) :
    TruncatingDivision div mod divmod := fun a b hb =>
  ⟨a.sdiv b, a.srem b, hdiv a b hb, hmod a b hb, hdivmod a b hb, BitVec.toInt_srem a b,
    BitVec.toInt_sdiv a b, fun h => BitVec.toInt_sdiv_of_ne_or_ne a b h⟩

/-- The remainder as `__modsi3` has it. -/
theorem sub_sdiv_mul (a b : BitVec w) : a - a.sdiv b * b = a.srem b := by
  rw [BitVec.sdiv_eq, BitVec.srem_eq]
  cases a.msb <;> cases b.msb <;> simp only [BitVec.udiv_eq, ← sub_udiv_mul]
  · rw [BitVec.neg_mul, BitVec.mul_neg]
  · rw [BitVec.neg_mul, BitVec.neg_sub, BitVec.sub_neg, BitVec.neg_neg]
  · rw [BitVec.neg_sub, BitVec.mul_neg, BitVec.neg_neg, BitVec.sub_eq_add_neg]

/-- The signed divisions of all three widths. -/
theorem signed_division : TruncatingDivision divsi3 modsi3 divmodsi4 ∧
    TruncatingDivision divdi3 moddi3 divmoddi4 ∧ TruncatingDivision divti3 modti3 divmodti4 := by
  have hdivsi : ∀ a b : BitVec 32, b ≠ 0#32 → divsi3 a b = .ok (a.sdiv b) := fun a b hb =>
    divXi3_eq (fun x y hy => udiv_ok x (toNat_pos hy)) hb
  refine ⟨.of_eq hdivsi ?_ ?_, .of_eq ?_ ?_ ?_, .of_eq ?_ ?_ ?_⟩
  · intro a b hb
    rw [modsi3, hdivsi a b hb, ok_bind, sub_sdiv_mul]
    rfl
  · exact fun a b hb => divmodXi4_eq (fun x y hy => udivmodsi4_ok hy) hb
  · exact fun a b hb => divXi3_eq (fun x y hy => by rw [udivmoddi4_ok hy]; rfl) hb
  · exact fun a b hb => modXi3_eq (fun x y hy => by rw [udivmoddi4Rem_ok x y hy]; rfl) hb
  · exact fun a b hb => divmodXi4_eq udivmoddi4Rem_ok hb
  · exact fun a b hb => divXi3_eq udivti3_ok hb
  · exact fun a b hb => modXi3_eq (fun x y hy => by rw [umodti3, udivmodti4Rem_ok x y hy]; rfl) hb
  · exact fun a b hb => divmodXi4_eq udivmodti4Rem_ok hb

end Cheesecloth.Builtins.IntDiv
