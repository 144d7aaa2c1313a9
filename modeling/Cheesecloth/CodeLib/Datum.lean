import Mathlib.Data.Int.ConditionallyCompleteOrder
import Mathlib.Order.Compare
import Mathlib.Order.WithBot
import Cheesecloth.CodeLib.Interchange

/-!
# Floating-point data and operations

What the words of a format stand for, and what the standard asks of an
operation on them.  Nothing here computes with words.

* `Datum` is a NaN, an infinity or a rational with a sign, so that the two zeros
  differ.  `Format.datum` reads a word.
* `Exact` is the result of an operation before it is put into a format.
  `Datum.add`, `sub`, `mul`, `div` and `convert` are the operations.
* `Format.Delivers` says which words may stand for an exact result.  Apart from
  the payload of a NaN there is one (`Delivers.unique`).
* `Datum.compare` is the comparison of the extended numbers.  It is `none` when
  the data are unordered.  On words it is the comparison of signed patterns
  (`compare_datum`).
-/

namespace Cheesecloth.CodeLib

/-- What a word stands for. -/
inductive Datum where
  | nan
  | inf (negative : Bool)
  | finite (negative : Bool) (x : ℚ)
  deriving DecidableEq

/-- The result of an operation before it is rounded. -/
inductive Exact where
  | nan
  | inf (negative : Bool)
  | zero (negative : Bool)
  | round (x : ℚ)
  deriving DecidableEq

namespace Datum

/-- The datum with the other sign. -/
def neg : Datum → Datum
  | nan => nan
  | inf s => inf !s
  | finite s x => finite (!s) (-x)

/-- The sum.  Two infinities of opposite signs have none, and the zero of a
cancellation is positive. -/
def add : Datum → Datum → Exact
  | nan, _ | _, nan => .nan
  | inf s, inf t => if s = t then .inf s else .nan
  | inf s, finite _ _ => .inf s
  | finite _ _, inf t => .inf t
  | finite s x, finite t y => if x + y = 0 then .zero (s && t) else .round (x + y)

def sub (a b : Datum) : Exact := a.add b.neg

/-- The product.  An infinity has none with a zero. -/
def mul : Datum → Datum → Exact
  | nan, _ | _, nan => .nan
  | inf s, inf t => .inf (s ^^ t)
  | inf s, finite t y => if y = 0 then .nan else .inf (s ^^ t)
  | finite s x, inf t => if x = 0 then .nan else .inf (s ^^ t)
  | finite s x, finite t y => if x * y = 0 then .zero (s ^^ t) else .round (x * y)

/-- The quotient.  Two infinities and two zeros have none, and the quotient of
any other number by a zero is an infinity. -/
def div : Datum → Datum → Exact
  | nan, _ | _, nan => .nan
  | inf _, inf _ => .nan
  | inf s, finite t _ => .inf (s ^^ t)
  | finite s _, inf t => .zero (s ^^ t)
  | finite s x, finite t y =>
    if y = 0 then if x = 0 then .nan else .inf (s ^^ t)
    else if x = 0 then .zero (s ^^ t) else .round (x / y)

/-- The datum itself, to be put into another format. -/
def convert : Datum → Exact
  | nan => .nan
  | inf s => .inf s
  | finite s x => if x = 0 then .zero s else .round x

/-- The extended number.  A NaN is none, and the two zeros are one. -/
def extended : Datum → Option (WithBot (WithTop ℚ))
  | nan => none
  | inf true => some ⊥
  | inf false => some ((⊤ : WithTop ℚ) : WithBot (WithTop ℚ))
  | finite _ x => some (((x : ℚ) : WithTop ℚ) : WithBot (WithTop ℚ))

/-- The order of two data, and `none` when one of them is a NaN. -/
def compare (a b : Datum) : Option Ordering := do
  return cmp (← a.extended) (← b.extended)

@[simp] theorem nan_add (a : Datum) : nan.add a = .nan := rfl

@[simp] theorem add_nan (a : Datum) : a.add nan = .nan := by cases a <;> rfl

@[simp] theorem nan_mul (a : Datum) : nan.mul a = .nan := rfl

@[simp] theorem mul_nan (a : Datum) : a.mul nan = .nan := by cases a <;> rfl

@[simp] theorem nan_div (a : Datum) : nan.div a = .nan := rfl

@[simp] theorem div_nan (a : Datum) : a.div nan = .nan := by cases a <;> rfl

@[simp] theorem nan_compare (a : Datum) : nan.compare a = none := rfl

@[simp] theorem compare_nan (a : Datum) : a.compare nan = none := by
  rcases a with _ | (_ | _) | _ <;> rfl

theorem convert_ne_nan {a : Datum} (h : a ≠ nan) : a.convert ≠ .nan := by
  cases a with
  | nan => exact absurd rfl h
  | inf s => simp [convert]
  | finite s x =>
    rw [convert]
    split_ifs <;> simp

theorem add_comm (a b : Datum) : a.add b = b.add a := by
  cases a <;> cases b <;> simp only [add]
  case inf.inf s t => cases s <;> cases t <;> rfl
  case finite.finite s x t y => rw [Rat.add_comm x y, Bool.and_comm s t]

theorem mul_comm (a b : Datum) : a.mul b = b.mul a := by
  cases a <;> cases b <;> simp only [mul, Bool.xor_comm]
  case finite.finite s x t y => rw [Rat.mul_comm x y]

end Datum

/-- `magnitude`, extended to negative patterns as an odd function. -/
def signedMagnitude (p : Nat) (k : Int) : Int :=
  if k < 0 then -(magnitude p k.natAbs : Int) else (magnitude p k.natAbs : Int)

theorem signedMagnitude_strictMono (p : Nat) : StrictMono (signedMagnitude p) := by
  intro k l hlt
  unfold signedMagnitude
  by_cases hk : k < 0
  · have hkpos := magnitude_pos (p := p) (show 0 < k.natAbs by omega)
    rw [if_pos hk]
    by_cases hl : l < 0
    · have := magnitude_strictMono p (show l.natAbs < k.natAbs by omega)
      rw [if_pos hl]
      omega
    · rw [if_neg hl]
      omega
  · have := magnitude_strictMono p (show k.natAbs < l.natAbs by omega)
    rw [if_neg hk, if_neg (by omega)]
    omega

namespace Format

variable (f : Format)

/-- What a word of the format stands for. -/
def datum (b : Nat) : Datum :=
  if f.infPattern < b % f.signBit then .nan
  else if b % f.signBit = f.infPattern then .inf (decide (f.signBit ≤ b))
  else .finite (decide (f.signBit ≤ b)) (f.value b)

/-- The words that may stand for an exact result.  The payload of a quiet NaN is
free. -/
def Delivers : Exact → Nat → Prop
  | .nan, b => b < 2 * f.signBit ∧ f.infPattern + 2 ^ (f.significandBits - 1) ≤ b % f.signBit
  | .inf s, b => b = f.pack s f.infPattern
  | .zero s, b => b = f.pack s 0
  | .round x, b => f.RoundsTo x b

variable {f} {b c : Nat}

theorem datum_nan (h : f.infPattern < b % f.signBit) : f.datum b = .nan := if_pos h

theorem datum_inf (h : b % f.signBit = f.infPattern) :
    f.datum b = .inf (decide (f.signBit ≤ b)) := by
  rw [datum, if_neg (by omega), if_pos h]

theorem datum_finite (h : f.IsFinite b) :
    f.datum b = .finite (decide (f.signBit ≤ b)) (f.value b) := by
  have := h.2
  rw [datum, if_neg (by omega), if_neg (by omega)]

/-- A word is a NaN, an infinity or finite. -/
theorem word_cases (hb : b < 2 * f.signBit) :
    f.infPattern < b % f.signBit ∨ b % f.signBit = f.infPattern ∨ f.IsFinite b := by
  unfold IsFinite
  omega

theorem value_eq_zero_iff : f.value b = 0 ↔ f.units b = 0 := by
  have hpos : (2 : ℚ) ^ f.scale ≠ 0 := by positivity
  rw [value, div_eq_zero_iff, or_iff_left hpos, Int.cast_eq_zero]

theorem units_eq_zero_iff : f.units b = 0 ↔ b % f.signBit = 0 := by
  rw [← Int.natAbs_eq_zero, natAbs_units]
  constructor
  · intro h
    by_contra hne
    exact (magnitude_pos (p := f.significandBits) (Nat.pos_of_ne_zero hne)).ne' h
  · intro h
    rw [h, magnitude_zero]

/-- A word is put together from its sign and its pattern. -/
theorem eq_pack (hb : b < 2 * f.signBit) (h : b % f.signBit ≤ f.infPattern) :
    b = f.pack (decide (f.signBit ≤ b)) (b % f.signBit) := by
  refine eq_of_pattern_eq hb (pack_lt _ _ _) ?_ ?_
  · rw [signBit_le_pack, decide_eq_true_iff]
  · rw [pack_mod_signBit, Nat.min_eq_left h]

/-- There is one word for a result that is not a NaN. -/
theorem Delivers.unique {e : Exact} (hb : f.Delivers e b) (hc : f.Delivers e c)
    (hnan : e ≠ .nan) : b = c := by
  cases e with
  | nan => exact absurd rfl hnan
  | inf s => exact Eq.trans hb (Eq.symm hc)
  | zero s => exact Eq.trans hb (Eq.symm hc)
  | round x => exact RoundsTo.unique hb hc

theorem Delivers.lt {e : Exact} (hb : f.Delivers e b) : b < 2 * f.signBit := by
  cases e with
  | nan => exact hb.1
  | inf s => exact lt_of_eq_of_lt hb (pack_lt _ _ _)
  | zero s => exact lt_of_eq_of_lt hb (pack_lt _ _ _)
  | round x => exact RoundsTo.lt hb

/-- A quiet NaN stands for no number. -/
theorem Delivers.datum_nan (hb : f.Delivers .nan b) : f.datum b = .nan :=
  Format.datum_nan (Nat.lt_of_lt_of_le (Nat.lt_add_of_pos_right (Nat.two_pow_pos _)) hb.2)

/-- A value of the format is its own rounding. -/
theorem roundsTo_value (hb : f.IsFinite b) (hz : b ≠ f.signBit) : f.RoundsTo (f.value b) b := by
  have h := f.pack_roundsTo (f.units b) 0
  rwa [Nat.add_zero, pack_units hb hz] at h

theorem roundsTo_zero : f.RoundsTo 0 (f.pack false 0) := by
  have h := f.pack_roundsTo 0 0
  rwa [Int.cast_zero, zero_div, decide_eq_false (by decide), Int.natAbs_zero,
    roundPattern_zero] at h

/-- A number that fits the significand and the range is not changed. -/
theorem RoundsTo.exact {X : Int} {m k : Nat} (h : f.RoundsTo ((X : ℚ) / 2 ^ f.scale) b)
    (hX : X.natAbs = m * 2 ^ k) (hm : m < 2 ^ (f.significandBits + 1))
    (hlt : X.natAbs < 2 ^ (f.significandBits + 2 * f.bias)) : f.IsFinite b ∧ f.units b = X := by
  obtain rfl := h.unique (f.pack_roundsTo X 0)
  exact pack_exact hX hm hlt

theorem abs_value_lt_overflowThreshold (hb : f.IsFinite b) :
    |f.value b| < f.overflowThreshold := by
  have hnearest := roundPattern_isNearest f.significandBits 0 (f.units b).natAbs
    f.significandBits_pos
  rw [Nat.pow_zero] at hnearest
  have hiff := overflowThreshold_le_iff (f := f) (X := f.units b) Nat.one_pos hnearest
  rw [Nat.cast_one, mul_one, natAbs_units, roundPattern_magnitude] at hiff
  rw [← not_le]
  exact fun h => Nat.not_le.2 hb.2 (hiff.1 h)

/-- Rounding is monotone against the values of the format. -/
theorem RoundsTo.le_value {x : ℚ} (h : f.RoundsTo x b) (hx : |x| < f.overflowThreshold)
    (hc : f.IsFinite c) (hle : f.value c ≤ x) : f.value c ≤ f.value b := by
  by_contra hlt
  have hnear := h.nearest hx c hc
  rw [abs_of_nonneg (by linarith), abs_of_nonneg (by linarith)] at hnear
  linarith

/-- A word other than a NaN is delivered for what it stands for. -/
theorem delivers_convert (hb : b < 2 * f.signBit) (hnan : f.datum b ≠ .nan) :
    f.Delivers (f.datum b).convert b := by
  rcases word_cases hb with h | h | h
  · exact absurd (Format.datum_nan h) hnan
  · rw [datum_inf h]
    have hpack := eq_pack hb (Nat.le_of_eq h)
    rwa [h] at hpack
  · rw [datum_finite h, Datum.convert]
    by_cases hzero : f.value b = 0
    · rw [if_pos hzero]
      have hpattern := units_eq_zero_iff.1 (value_eq_zero_iff.1 hzero)
      have hpack := eq_pack hb (Nat.le_of_lt h.2)
      rwa [hpattern] at hpack
    · rw [if_neg hzero]
      refine roundsTo_value h ?_
      rintro rfl
      exact hzero (value_eq_zero_iff.2 (units_eq_zero_iff.2 (Nat.mod_self _)))

/-! ## Order -/

variable (f) in
/-- The pattern of a word, negative for a negative word. -/
def key (b : Nat) : Int :=
  if f.signBit ≤ b then -((b % f.signBit : Nat) : Int) else ((b % f.signBit : Nat) : Int)

variable (f) in
/-- The extended number of a key. -/
def ofKey (k : Int) : WithBot (WithTop ℚ) :=
  if k = -f.infPattern then ⊥
  else if k = f.infPattern then ((⊤ : WithTop ℚ) : WithBot (WithTop ℚ))
  else (((signedMagnitude f.significandBits k / 2 ^ f.scale : ℚ) : WithTop ℚ) :
    WithBot (WithTop ℚ))

theorem natAbs_key : (f.key b).natAbs = b % f.signBit := by
  unfold key
  split_ifs <;> omega

theorem units_eq_signedMagnitude : f.units b = signedMagnitude f.significandBits (f.key b) := by
  unfold units signedMagnitude
  rw [natAbs_key]
  unfold key
  by_cases hsign : f.signBit ≤ b
  · rw [if_neg (Nat.not_lt.2 hsign), if_pos hsign]
    by_cases hzero : b % f.signBit = 0
    · simp [hzero]
    · rw [if_pos (by omega)]
  · rw [if_pos (Nat.lt_of_not_le hsign), if_neg hsign, if_neg (by omega)]

/-- The order of the extended numbers is the order of the keys. -/
theorem ofKey_strictMonoOn : StrictMonoOn f.ofKey {k | k.natAbs ≤ f.infPattern} := by
  intro k hk l hl hlt
  rw [Set.mem_ofPred_eq] at hk hl
  unfold ofKey
  by_cases hbot : k = -f.infPattern
  · rw [if_pos hbot, if_neg (by omega)]
    split_ifs
    · exact WithBot.bot_lt_coe _
    · exact WithBot.bot_lt_coe _
  · rw [if_neg hbot, if_neg (by omega), if_neg (by omega)]
    by_cases htop : l = f.infPattern
    · rw [if_pos htop]
      exact WithBot.coe_lt_coe.2 (WithTop.coe_lt_top _)
    · have hpos : (0 : ℚ) < 2 ^ f.scale := by positivity
      rw [if_neg htop, WithBot.coe_lt_coe, WithTop.coe_lt_coe, div_lt_div_iff_of_pos_right hpos,
        Int.cast_lt]
      exact signedMagnitude_strictMono _ hlt

theorem extended_datum (h : b % f.signBit ≤ f.infPattern) :
    (f.datum b).extended = some (f.ofKey (f.key b)) := by
  have hpos := infPattern_pos (f := f)
  rcases Nat.lt_or_eq_of_le h with hlt | heq
  · have habs := natAbs_key (f := f) (b := b)
    rw [datum, if_neg (by omega), if_neg (by omega), Datum.extended, ofKey, if_neg (by omega),
      if_neg (by omega), value, units_eq_signedMagnitude]
  · rw [datum_inf heq, ofKey, key, heq]
    by_cases hsign : f.signBit ≤ b
    · rw [decide_eq_true hsign, if_pos hsign, if_pos rfl, Datum.extended]
    · rw [decide_eq_false hsign, if_neg hsign, if_neg (by omega), if_pos rfl, Datum.extended]

/-- Words other than NaNs are compared by their keys. -/
theorem compare_datum (hb : b % f.signBit ≤ f.infPattern) (hc : c % f.signBit ≤ f.infPattern) :
    (f.datum b).compare (f.datum c) = some (cmp (f.key b) (f.key c)) := by
  rw [Datum.compare, extended_datum hb, extended_datum hc]
  refine congrArg some (ofKey_strictMonoOn.cmp_map_eq ?_ ?_)
  · rwa [Set.mem_ofPred_eq, natAbs_key]
  · rwa [Set.mem_ofPred_eq, natAbs_key]

end Format

end Cheesecloth.CodeLib
