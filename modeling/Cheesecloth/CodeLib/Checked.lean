import Mathlib.Data.Nat.Bitwise

/-!
# Checked machine words

C gives no meaning to a shift whose count is negative or not below the width,
to a division by zero, or to `__builtin_clzll(0)` and `__builtin_ctz(0)`.  The
operations of this module run in `Checked`, and answer a `Fault` in these cases.
A proof that a routine answers `.ok` is therefore a proof that no such operation
is reached.

C leaves undefined as well what leaves the range of a signed type: a signed sum,
product or negation, the quotient of the least integer by `-1`, and a signed left
shift.  These are not checked.  They are `BitVec` arithmetic, which wraps, as the
compiled code does.

There are two groups.

* The operations and the rewrite rules `shl_ok`, `shr_ok`, `sar_ok`, `udiv_ok`,
  `umod_ok`, `sdiv_ok`, `clz_ok` and `ctz_ok`, one for each operation, which
  discharge the check.
* The number of significant bits: `clz` of a non-zero word in terms of
  `Nat.log2`.
-/

namespace Cheesecloth.CodeLib

/-- The undefined operations of C that are checked: those whose operands have no
result at all.  `fuel` is the one fault that is not an operation of C: a loop that
outruns the iteration bound of its model. -/
inductive Fault where
  | shiftCount
  | divByZero
  | clzZero
  | fuel
  deriving DecidableEq, Repr

/-- A computation that may reach an operation without a meaning. -/
abbrev Checked (α : Type) := Except Fault α

namespace Checked

variable {α β : Type} {w : Nat}

@[simp] theorem ok_bind (a : α) (f : α → Checked β) :
    (Except.ok a >>= f : Checked β) = f a := rfl

@[simp] theorem pure_eq_ok (a : α) : (pure a : Checked α) = .ok a := rfl

@[simp] theorem map_ok (f : α → β) (a : α) :
    (f <$> (Except.ok a : Checked α)) = .ok (f a) := rfl

/-! ## Shifts -/

/-- `x << n`.  Only the count is checked: on a signed word the bits that leave it are
dropped, as on an unsigned one. -/
def shl (x : BitVec w) (n : Int) : Checked (BitVec w) :=
  if 0 ≤ n ∧ n < w then .ok (x <<< n.toNat) else .error .shiftCount

/-- `x >> n` on an unsigned word. -/
def shr (x : BitVec w) (n : Int) : Checked (BitVec w) :=
  if 0 ≤ n ∧ n < w then .ok (x >>> n.toNat) else .error .shiftCount

/-- `x >> n` on a signed word, which copies the sign bit. -/
def sar (x : BitVec w) (n : Int) : Checked (BitVec w) :=
  if 0 ≤ n ∧ n < w then .ok (x.sshiftRight n.toNat) else .error .shiftCount

/-- A count inside the word has a meaning.  The count is given as the natural
number that it is, which is the form the later proofs compute with. -/
theorem shl_ok (x : BitVec w) {n : Int} {k : Nat} (hn : n = k) (hk : k < w) :
    shl x n = .ok (x <<< k) := by
  subst hn
  rw [shl, if_pos ⟨Int.natCast_nonneg k, by exact_mod_cast hk⟩, Int.toNat_natCast]

theorem shr_ok (x : BitVec w) {n : Int} {k : Nat} (hn : n = k) (hk : k < w) :
    shr x n = .ok (x >>> k) := by
  subst hn
  rw [shr, if_pos ⟨Int.natCast_nonneg k, by exact_mod_cast hk⟩, Int.toNat_natCast]

theorem sar_ok (x : BitVec w) {n : Int} {k : Nat} (hn : n = k) (hk : k < w) :
    sar x n = .ok (x.sshiftRight k) := by
  subst hn
  rw [sar, if_pos ⟨Int.natCast_nonneg k, by exact_mod_cast hk⟩, Int.toNat_natCast]

/-! ## Division -/

/-- `x / y` on unsigned words. -/
def udiv (x y : BitVec w) : Checked (BitVec w) :=
  if y = 0#w then .error .divByZero else .ok (x / y)

/-- `x % y` on unsigned words. -/
def umod (x y : BitVec w) : Checked (BitVec w) :=
  if y = 0#w then .error .divByZero else .ok (x % y)

/-- `x / y` on signed words.  The quotient of the least word by `-1` wraps. -/
def sdiv (x y : BitVec w) : Checked (BitVec w) :=
  if y = 0#w then .error .divByZero else .ok (x.sdiv y)

theorem ne_zero_of_toNat_pos {y : BitVec w} (hy : 0 < y.toNat) : y ≠ 0#w := by
  rintro rfl
  simp at hy

theorem udiv_ok (x : BitVec w) {y : BitVec w} (hy : 0 < y.toNat) :
    udiv x y = .ok (x / y) := by
  rw [udiv, if_neg (ne_zero_of_toNat_pos hy)]

theorem umod_ok (x : BitVec w) {y : BitVec w} (hy : 0 < y.toNat) :
    umod x y = .ok (x % y) := by
  rw [umod, if_neg (ne_zero_of_toNat_pos hy)]

theorem sdiv_ok (x : BitVec w) {y : BitVec w} (hy : y ≠ 0#w) : sdiv x y = .ok (x.sdiv y) := by
  rw [sdiv, if_neg hy]

/-! ## Leading zeros -/

/-- `__builtin_clz`, `__builtin_clzl` and `__builtin_clzll`: the number of
zero bits above the highest set bit. -/
def clz (x : BitVec w) : Checked Int :=
  if x = 0#w then .error .clzZero else .ok x.clz.toNat

/-- The leading zeros and the significant bits of a non-zero word fill it. -/
theorem clz_add_log2 {x : BitVec w} (hx : 0 < x.toNat) :
    x.clz.toNat + x.toNat.log2 + 1 = w := by
  have hne : x ≠ 0#w := ne_zero_of_toNat_pos hx
  have hw : 0 < w := by
    rcases Nat.eq_zero_or_pos w with rfl | h
    · exact absurd (BitVec.of_length_zero) hne
    · exact h
  have hlow := BitVec.two_pow_sub_clz_le_toNat_of_ne_zero hw hne
  have hhigh := BitVec.toNat_lt_two_pow_sub_clz (x := x)
  have hlt : x.clz.toNat < w := by
    by_contra hge
    rw [show w - x.clz.toNat = 0 by omega] at hhigh
    omega
  have hlog : x.toNat.log2 = w - 1 - x.clz.toNat := by
    rw [Nat.log2_eq_iff (by omega)]
    refine ⟨hlow, ?_⟩
    rwa [show w - 1 - x.clz.toNat + 1 = w - x.clz.toNat by omega]
  omega

theorem clz_ok {x : BitVec w} {n : Nat} (hx : 0 < x.toNat)
    (hn : n + x.toNat.log2 + 1 = w) : clz x = .ok (n : Int) := by
  have h := clz_add_log2 hx
  rw [clz, if_neg (ne_zero_of_toNat_pos hx)]
  congr 2
  omega

/-! ## Trailing zeros -/

/-- `__builtin_ctz`: the number of zero bits below the lowest set bit.  Zero has
no lowest set bit, as it has no highest one for `clz`. -/
def ctz (x : BitVec w) : Checked Int :=
  if x = 0#w then .error .clzZero else .ok x.ctz.toNat

/-- The trailing zeros of a power of two. -/
theorem ctz_ok {x : BitVec w} {k : Nat} (hx : x.toNat = 2 ^ k) : ctz x = .ok k := by
  have hpos : 0 < x.toNat := hx ▸ Nat.two_pow_pos k
  have hk : k < w := (Nat.pow_lt_pow_iff_right (by decide)).1 (hx ▸ x.isLt)
  have hreverse : x.reverse = BitVec.twoPow w (w - 1 - k) := by
    apply BitVec.eq_of_getLsbD_eq
    intro i hi
    rw [BitVec.getLsbD_reverse, BitVec.getMsbD_eq_getLsbD, BitVec.getLsbD_twoPow,
      BitVec.getLsbD, hx, Nat.testBit_two_pow]
    simp only [hi, decide_true, Bool.true_and]
    rw [decide_eq_true (by omega : w - 1 - k < w), Bool.true_and, decide_eq_decide]
    omega
  have hNat : x.reverse.toNat = 2 ^ (w - 1 - k) := by
    rw [hreverse, BitVec.toNat_twoPow, Nat.mod_eq_of_lt (Nat.pow_lt_pow_right (by decide)
      (by omega))]
  have hclz := clz_add_log2 (x := x.reverse) (by rw [hNat]; exact Nat.two_pow_pos _)
  rw [hNat, Nat.log2_two_pow] at hclz
  rw [ctz, if_neg (ne_zero_of_toNat_pos hpos), BitVec.ctz]
  congr 2
  omega

end Checked

end Cheesecloth.CodeLib
