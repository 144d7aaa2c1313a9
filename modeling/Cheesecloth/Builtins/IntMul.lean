import Cheesecloth.Builtins.IntDiv.Signed

/-!
# Products, and arithmetic that notices overflow

* `muldi3.c` and `multi3.c`: the product of double words from the products of
  half words (`mulXi3_eq`).
* `int_mulo_impl.inc` and `int_mulv_impl.inc`: the product with a flag, and the one
  that aborts.  Both decide by a division whether the product fits.
* `addvXi3`, `subvXi3`, `negvXi2` and `absvXi2`: the other routines that abort.

A routine that calls `compilerrt_abort` answers `none`.  `trapping` is what all of
them are for: the exact result if the type has it, and no result otherwise.

The product of `int_mulo_impl.inc` is a product of signed integers, which C leaves
undefined when it does not fit.  It is read here as the wrapped product, and what is
proved of the flag is under that reading.
-/

namespace Cheesecloth.Builtins.IntMul

open CodeLib CodeLib.Checked IntDiv

variable {w : Nat}

/-! ## The routines -/

/-- `__muldsi3` and `__mulddi3`: the product of two words as a double word. -/
def mulWords (a b : BitVec w) : BitVec (w + w) :=
  let bitsInWord2 := w / 2
  let lowerMask := ~~~0#w >>> bitsInWord2
  let low := (a &&& lowerMask) * (b &&& lowerMask)
  let t := low >>> bitsInWord2
  let low := low &&& lowerMask
  let t := t + (a >>> bitsInWord2) * (b &&& lowerMask)
  let low := low + (t &&& lowerMask) <<< bitsInWord2
  let high := t >>> bitsInWord2
  let t := low >>> bitsInWord2
  let low := low &&& lowerMask
  let t := t + (b >>> bitsInWord2) * (a &&& lowerMask)
  let low := low + (t &&& lowerMask) <<< bitsInWord2
  let high := high + t >>> bitsInWord2
  let high := high + (a >>> bitsInWord2) * (b >>> bitsInWord2)
  high ++ low

/-- `x.s.high`. -/
def highHalf (x : BitVec (w + w)) : BitVec w := x.extractLsb' w w

/-- `x.s.low`. -/
def lowHalf (x : BitVec (w + w)) : BitVec w := x.extractLsb' 0 w

/-- `__muldi3` and `__multi3`, by the size of the half words. -/
def mulXi3 (a b : BitVec (w + w)) : BitVec (w + w) :=
  let r := mulWords (lowHalf a) (lowHalf b)
  (highHalf r + (highHalf a * lowHalf b + lowHalf a * highHalf b)) ++ lowHalf r

/-- `__muldi3`. -/
def muldi3 (a b : BitVec 64) : BitVec 64 := mulXi3 (w := 32) a b

/-- `__multi3`. -/
def multi3 (a b : BitVec 128) : BitVec 128 := mulXi3 (w := 64) a b

/-- The tests of `__muloXi4` and `__mulvXi3`, which set the flag in the one and abort
in the other. -/
def mulOverflows (a b : BitVec w) : Checked Bool :=
  let min : BitVec w := 1#w <<< (w - 1)
  let max : BitVec w := ~~~min
  if a = min then return decide (b ≠ 0#w ∧ b ≠ 1#w)
  else if b = min then return decide (a ≠ 0#w ∧ a ≠ 1#w)
  else
    let sa := a.sshiftRight (w - 1)
    let absA := (a ^^^ sa) - sa
    let sb := b.sshiftRight (w - 1)
    let absB := (b ^^^ sb) - sb
    if absA.slt 2#w ∨ absB.slt 2#w then return false
    else if sa = sb then do return (← sdiv max absB).slt absA
    else do return (← sdiv min (-absB)).slt absA

/-- `__muloXi4`: the product that is returned and the flag stored through
`overflow`. -/
def muloXi4 (a b : BitVec w) : Checked (BitVec w × Bool) := do
  return (a * b, ← mulOverflows a b)

/-- `__mulvXi3`. -/
def mulvXi3 (a b : BitVec w) : Checked (Option (BitVec w)) := do
  return if ← mulOverflows a b then none else some (a * b)

/-- `__addvsi3`, `__addvdi3` and `__addvti3`. -/
def addvXi3 (a b : BitVec w) : Option (BitVec w) :=
  let s := a + b
  if (0#w).sle b then
    if s.slt a then none else some s
  else
    if a.sle s then none else some s

/-- `__subvsi3`, `__subvdi3` and `__subvti3`. -/
def subvXi3 (a b : BitVec w) : Option (BitVec w) :=
  let s := a - b
  if (0#w).sle b then
    if a.slt s then none else some s
  else
    if s.sle a then none else some s

/-- `__negvsi2`, `__negvdi2` and `__negvti2`. -/
def negvXi2 (a : BitVec w) : Option (BitVec w) :=
  let min : BitVec w := 1#w <<< (w - 1)
  if a = min then none else some (-a)

/-- `__absvsi2`, `__absvdi2` and `__absvti2`. -/
def absvXi2 (a : BitVec w) : Option (BitVec w) :=
  if a = 1#w <<< (w - 1) then none
  else
    let t := a.sshiftRight (w - 1)
    some ((a ^^^ t) - t)

/-! ## The routines of each width -/

/-- `__addvsi3`. -/
def addvsi3 (a b : BitVec 32) : Option (BitVec 32) := addvXi3 a b

/-- `__addvdi3`. -/
def addvdi3 (a b : BitVec 64) : Option (BitVec 64) := addvXi3 a b

/-- `__addvti3`. -/
def addvti3 (a b : BitVec 128) : Option (BitVec 128) := addvXi3 a b

/-- `__subvsi3`. -/
def subvsi3 (a b : BitVec 32) : Option (BitVec 32) := subvXi3 a b

/-- `__subvdi3`. -/
def subvdi3 (a b : BitVec 64) : Option (BitVec 64) := subvXi3 a b

/-- `__subvti3`. -/
def subvti3 (a b : BitVec 128) : Option (BitVec 128) := subvXi3 a b

/-- `__negvsi2`. -/
def negvsi2 (a : BitVec 32) : Option (BitVec 32) := negvXi2 a

/-- `__negvdi2`. -/
def negvdi2 (a : BitVec 64) : Option (BitVec 64) := negvXi2 a

/-- `__negvti2`. -/
def negvti2 (a : BitVec 128) : Option (BitVec 128) := negvXi2 a

/-- `__absvsi2`. -/
def absvsi2 (a : BitVec 32) : Option (BitVec 32) := absvXi2 a

/-- `__absvdi2`. -/
def absvdi2 (a : BitVec 64) : Option (BitVec 64) := absvXi2 a

/-- `__absvti2`. -/
def absvti2 (a : BitVec 128) : Option (BitVec 128) := absvXi2 a

/-- `__mulvsi3`. -/
def mulvsi3 (a b : BitVec 32) : Checked (Option (BitVec 32)) := mulvXi3 a b

/-- `__mulvdi3`. -/
def mulvdi3 (a b : BitVec 64) : Checked (Option (BitVec 64)) := mulvXi3 a b

/-- `__mulvti3`. -/
def mulvti3 (a b : BitVec 128) : Checked (Option (BitVec 128)) := mulvXi3 a b

/-- `__mulosi4`. -/
def mulosi4 (a b : BitVec 32) : Checked (BitVec 32 × Bool) := muloXi4 a b

/-- `__mulodi4`. -/
def mulodi4 (a b : BitVec 64) : Checked (BitVec 64 × Bool) := muloXi4 a b

/-- `__muloti4`. -/
def muloti4 (a b : BitVec 128) : Checked (BitVec 128 × Bool) := muloXi4 a b

/-! ## The product of half words -/

/-- The products of the digits of two numbers of two digits, with their carries. -/
theorem digits_product {B a1 a0 b1 b0 t u : Nat} (ht : t = a0 * b0 / B + a1 * b0)
    (hu : u = t % B + b1 * a0) :
    (t / B + u / B + a1 * b1) * (B * B) + (a0 * b0 % B + u % B * B) =
      (a1 * B + a0) * (b1 * B + b0) := by
  have hlowSplit := Nat.div_add_mod (a0 * b0) B
  have htSplit := Nat.div_add_mod t B
  have huSplit := Nat.div_add_mod u B
  calc (t / B + u / B + a1 * b1) * (B * B) + (a0 * b0 % B + u % B * B)
      = t / B * (B * B) + (B * (u / B) + u % B) * B + a1 * b1 * (B * B) + a0 * b0 % B := by ring
    _ = (B * (t / B) + t % B) * B + b1 * a0 * B + a1 * b1 * (B * B) + a0 * b0 % B := by
        rw [huSplit, hu]
        ring
    _ = a1 * b0 * B + b1 * a0 * B + a1 * b1 * (B * B) + (B * (a0 * b0 / B) + a0 * b0 % B) := by
        rw [htSplit, ht]
        ring
    _ = (a1 * B + a0) * (b1 * B + b0) := by
        rw [hlowSplit]
        ring

/-- The carries fit their words. -/
theorem digits_bounds {B a1 a0 b1 b0 t u : Nat} (ha1 : a1 < B) (ha0 : a0 < B) (hb1 : b1 < B)
    (hb0 : b0 < B) (ht : t = a0 * b0 / B + a1 * b0) (hu : u = t % B + b1 * a0) :
    a0 * b0 < B * B ∧ t < B * B ∧ u < B * B := by
  have hpos : 0 < B := by omega
  have hmul : ∀ {x y : Nat}, x < B → y < B → x * y + (B - 1) < B * B := by
    intro x y hx hy
    have hle : x * y ≤ (B - 1) * (B - 1) := Nat.mul_le_mul (by omega) (by omega)
    obtain ⟨C, rfl⟩ : ∃ C, B = C + 1 := ⟨B - 1, by omega⟩
    rw [Nat.add_sub_cancel] at *
    have hsq : (C + 1) * (C + 1) = C * C + C + C + 1 := by ring
    omega
  have hlow := hmul ha0 hb0
  have hcarry : a0 * b0 / B < B := by
    rw [Nat.div_lt_iff_lt_mul hpos]
    omega
  have hmod := Nat.mod_lt t hpos
  have h1 := hmul ha1 hb0
  have h2 := hmul hb1 ha0
  exact ⟨by omega, by omega, by omega⟩

theorem highHalf_toNat (x : BitVec (w + w)) : (highHalf x).toNat = x.toNat / 2 ^ w :=
  Bits.toNat_extractHigh x

theorem lowHalf_toNat (x : BitVec (w + w)) : (lowHalf x).toNat = x.toNat % 2 ^ w :=
  Bits.toNat_extractLow x

/-- A half word above another one. -/
theorem toNat_add_shiftLeft {h : Nat} (hw : w = h + h) {x m : BitVec w} (t : BitVec w)
    (hm : m.toNat = 2 ^ h - 1) :
    ((x &&& m) + (t &&& m) <<< h).toNat = x.toNat % 2 ^ h + t.toNat % 2 ^ h * 2 ^ h := by
  have hpow : 2 ^ w = 2 ^ h * 2 ^ h := by rw [hw, Nat.pow_add]
  have hx := Nat.mod_lt x.toNat (Nat.two_pow_pos h)
  have hle : (t.toNat % 2 ^ h + 1) * 2 ^ h ≤ 2 ^ h * 2 ^ h :=
    Nat.mul_le_mul_right _ (Nat.mod_lt t.toNat (Nat.two_pow_pos h))
  rw [Nat.add_mul, Nat.one_mul] at hle
  have hshift : ((t &&& m) <<< h).toNat = t.toNat % 2 ^ h * 2 ^ h := by
    rw [Bits.toNat_shiftLeft_of_lt, Bits.toNat_and_lowMask hm]
    rw [Bits.toNat_and_lowMask hm]
    omega
  rw [BitVec.toNat_add, Bits.toNat_and_lowMask hm, hshift, Nat.mod_eq_of_lt (by omega)]

/-- A sum with a product that fits the word. -/
theorem toNat_add_mul {x y z : BitVec w} {p q r : Nat} (hx : x.toNat = p) (hy : y.toNat = q)
    (hz : z.toNat = r) (hlt : p + q * r < 2 ^ w) : (x + y * z).toNat = p + q * r := by
  rw [BitVec.toNat_add, BitVec.toNat_mul, hx, hy, hz, Nat.add_mod_mod, Nat.mod_eq_of_lt hlt]

/-- The words of the routine, one after the other, by the digits of the operands. -/
theorem mulWords_digits {h a1 a0 b1 b0 : Nat} (hw : w = h + h) {m A1 A0 B1 B0 : BitVec w}
    (hm : m.toNat = 2 ^ h - 1) (hA1 : A1.toNat = a1) (hA0 : A0.toNat = a0) (hB1 : B1.toNat = b1)
    (hB0 : B0.toNat = b0) (ha1 : a1 < 2 ^ h) (ha0 : a0 < 2 ^ h) (hb1 : b1 < 2 ^ h)
    (hb0 : b0 < 2 ^ h) {low t low' u : BitVec w} (hlow : low = A0 * B0)
    (ht : t = low >>> h + A1 * B0) (hlow' : low' = (low &&& m) + (t &&& m) <<< h)
    (hu : u = low' >>> h + B1 * A0) :
    ((t >>> h + u >>> h + A1 * B1) ++ ((low' &&& m) + (u &&& m) <<< h)).toNat =
      (a1 * 2 ^ h + a0) * (b1 * 2 ^ h + b0) := by
  have hpow : 2 ^ w = 2 ^ h * 2 ^ h := by rw [hw, Nat.pow_add]
  have hBpos := Nat.two_pow_pos h
  obtain ⟨hlowLt, htLt, huLt⟩ := digits_bounds ha1 ha0 hb1 hb0 rfl rfl
  have hlowNat : low.toNat = a0 * b0 := by
    rw [hlow, BitVec.toNat_mul, hA0, hB0, Nat.mod_eq_of_lt (by omega)]
  have htNat : t.toNat = a0 * b0 / 2 ^ h + a1 * b0 := by
    rw [ht]
    exact toNat_add_mul (by rw [Bits.toNat_shiftRight, hlowNat]) hA1 hB0 (by omega)
  -- The second digit takes the carry of the first.
  have hlowNat' := toNat_add_shiftLeft hw (x := low) t hm
  rw [← hlow'] at hlowNat'
  have hmod := Nat.mod_lt low.toNat hBpos
  have hlowDiv : low'.toNat / 2 ^ h = t.toNat % 2 ^ h := by
    rw [hlowNat', Nat.add_mul_div_right _ _ hBpos, Nat.div_eq_of_lt hmod, Nat.zero_add]
  have hlowMod : low'.toNat % 2 ^ h = a0 * b0 % 2 ^ h := by
    rw [hlowNat', Nat.add_mul_mod_self_right, Nat.mod_mod, hlowNat]
  have huNat : u.toNat = t.toNat % 2 ^ h + b1 * a0 := by
    rw [hu]
    exact toNat_add_mul (by rw [Bits.toNat_shiftRight, hlowDiv]) hB1 hA0 (by rw [htNat]; omega)
  have hdigits := digits_product htNat huNat
  -- The upper word fits, as the product of the operands does.
  have hproduct : (a1 * 2 ^ h + a0) * (b1 * 2 ^ h + b0) < 2 ^ w * 2 ^ w := by
    have hdigit : ∀ {x y : Nat}, x < 2 ^ h → y < 2 ^ h → x * 2 ^ h + y < 2 ^ w := by
      intro x y hx hy
      have hle : (x + 1) * 2 ^ h ≤ 2 ^ h * 2 ^ h := Nat.mul_le_mul_right _ hx
      rw [Nat.add_mul, Nat.one_mul] at hle
      omega
    exact Nat.mul_lt_mul'' (hdigit ha1 ha0) (hdigit hb1 hb0)
  have hhighLt : t.toNat / 2 ^ h + u.toNat / 2 ^ h + a1 * b1 < 2 ^ w := by
    rw [← hdigits, ← hpow] at hproduct
    exact Nat.lt_of_mul_lt_mul_right (Nat.lt_of_le_of_lt (Nat.le_add_right _ _) hproduct)
  have hcarries : (t >>> h + u >>> h).toNat = t.toNat / 2 ^ h + u.toNat / 2 ^ h := by
    rw [BitVec.toNat_add, Bits.toNat_shiftRight, Bits.toNat_shiftRight,
      Nat.mod_eq_of_lt (Nat.lt_of_le_of_lt (Nat.le_add_right _ _) hhighLt)]
  rw [Bits.toNat_append, toNat_add_mul hcarries hA1 hB1 hhighLt,
    toNat_add_shiftLeft hw (x := low') u hm, hlowMod, hpow]
  exact hdigits

/-- No partial sum overflows, and the two words hold the product. -/
theorem mulWords_toNat {h : Nat} (hw : w = h + h) (a b : BitVec w) :
    (mulWords a b).toNat = a.toNat * b.toNat := by
  have hBpos := Nat.two_pow_pos h
  have hmask : (~~~0#w >>> h).toNat = 2 ^ h - 1 := by
    have hones := Bits.toNat_allOnes_shiftRight (w := w) (k := h) (by omega)
    rwa [show w - h = h by omega, ← BitVec.not_zero] at hones
  have hupper : ∀ x : BitVec w, x.toNat / 2 ^ h < 2 ^ h := by
    intro x
    rw [Nat.div_lt_iff_lt_mul hBpos, ← Nat.pow_add, ← hw]
    exact x.isLt
  have hproduct := mulWords_digits hw hmask (Bits.toNat_shiftRight a h)
    (Bits.toNat_and_lowMask (x := a) hmask) (Bits.toNat_shiftRight b h)
    (Bits.toNat_and_lowMask (x := b) hmask) (hupper a) (Nat.mod_lt _ hBpos) (hupper b)
    (Nat.mod_lt _ hBpos) rfl rfl rfl rfl
  rw [Nat.div_add_mod', Nat.div_add_mod'] at hproduct
  unfold mulWords
  rw [show w / 2 = h by omega]
  exact hproduct

/-- `__muldi3` and `__multi3` are the product of the double words. -/
theorem mulXi3_eq {h : Nat} (hw : w = h + h) (a b : BitVec (w + w)) : mulXi3 a b = a * b := by
  have hproduct := mulWords_toNat hw (lowHalf a) (lowHalf b)
  unfold mulXi3
  apply BitVec.eq_of_toNat_eq
  dsimp only
  rw [Bits.toNat_append, BitVec.toNat_add, BitVec.toNat_add, BitVec.toNat_mul, BitVec.toNat_mul,
    highHalf_toNat (mulWords _ _), lowHalf_toNat (mulWords _ _), hproduct, BitVec.toNat_mul]
  have haSplit := Nat.div_add_mod' a.toNat (2 ^ w)
  have hbSplit := Nat.div_add_mod' b.toNat (2 ^ w)
  rw [← highHalf_toNat, ← lowHalf_toNat] at haSplit hbSplit
  rw [← haSplit, ← hbSplit, Nat.pow_add]
  generalize (highHalf a).toNat = a1
  generalize (lowHalf a).toNat = a0
  generalize (highHalf b).toNat = b1
  generalize (lowHalf b).toNat = b0
  have hsplit := Nat.div_add_mod' (a0 * b0) (2 ^ w)
  have hexpand : (a1 * 2 ^ w + a0) * (b1 * 2 ^ w + b0) =
      a0 * b0 % 2 ^ w + 2 ^ w * (a0 * b0 / 2 ^ w + (a1 * b0 + a0 * b1) + 2 ^ w * (a1 * b1)) := by
    conv_lhs => rw [show (a1 * 2 ^ w + a0) * (b1 * 2 ^ w + b0) =
      a0 * b0 + 2 ^ w * (a1 * b0 + a0 * b1 + 2 ^ w * (a1 * b1)) by ring, ← hsplit]
    ring
  rw [hexpand, Nat.mod_mul, Nat.add_mul_mod_self_left, Nat.mod_mod,
    Nat.add_mul_div_left _ _ (Nat.two_pow_pos w),
    Nat.div_eq_of_lt (Nat.mod_lt _ (Nat.two_pow_pos w)), Nat.zero_add, Nat.add_mul_mod_self_left,
    Nat.mod_add_mod, Nat.add_mod_mod, ← Nat.add_assoc, Nat.add_mod_mod, Nat.add_assoc,
    Nat.mul_comm (2 ^ w), Nat.add_comm (a0 * b0 % 2 ^ w)]

/-! ## What the checked routines are for -/

/-- The integers of the signed type. -/
def InRange (w : Nat) (x : Int) : Prop := -2 ^ (w - 1) ≤ x ∧ x < 2 ^ (w - 1)

instance (w : Nat) (x : Int) : Decidable (InRange w x) := inferInstanceAs (Decidable (_ ∧ _))

/-- The word of an integer, if the signed type has it. -/
def trapping (w : Nat) (x : Int) : Option (BitVec w) :=
  if InRange w x then some (BitVec.ofInt w x) else none

section Ranges

variable (a b : BitVec w)

theorem toInt_inRange : InRange w a.toInt := ⟨BitVec.le_toInt a, BitVec.toInt_lt⟩

theorem two_pow_int (hw : 0 < w) : ((2 ^ w : Nat) : Int) = 2 * 2 ^ (w - 1) := by
  obtain ⟨n, rfl⟩ := Nat.exists_eq_add_one.2 hw
  rw [Nat.add_sub_cancel, Nat.pow_succ]
  push_cast
  ring

/-- A result that leaves the range once comes back at the other end. -/
theorem bmod_cases (hw : 0 < w) {x : Int} (hlow : -(2 * 2 ^ (w - 1)) ≤ x)
    (hhigh : x < 2 * 2 ^ (w - 1)) :
    (x < -2 ^ (w - 1) ∧ x.bmod (2 ^ w) = x + 2 * 2 ^ (w - 1)) ∨
      (2 ^ (w - 1) ≤ x ∧ x.bmod (2 ^ w) = x - 2 * 2 ^ (w - 1)) ∨
      InRange w x ∧ x.bmod (2 ^ w) = x := by
  have hpow := two_pow_int hw
  simp only [Int.bmod_eq_iff (Nat.two_pow_pos w), hpow, InRange]
  rcases lt_or_ge x (-2 ^ (w - 1)) with h | h
  · exact Or.inl ⟨h, by omega, by omega, 1, by ring⟩
  · rcases lt_or_ge x (2 ^ (w - 1)) with h' | h'
    · exact Or.inr (Or.inr ⟨⟨h, h'⟩, by omega, by omega, 0, by ring⟩)
    · exact Or.inr (Or.inl ⟨h', by omega, by omega, -1, by ring⟩)

theorem min_toInt (hw : 0 < w) : (1#w <<< (w - 1)).toInt = -2 ^ (w - 1) := by
  have hmin := BitVec.toInt_intMin (w := w)
  rw [Nat.mod_eq_of_lt (Nat.pow_lt_pow_right (by decide) (by omega)), Nat.cast_pow] at hmin
  exact hmin

theorem eq_min_iff (hw : 0 < w) : a = 1#w <<< (w - 1) ↔ a.toInt = -2 ^ (w - 1) := by
  rw [← BitVec.toInt_inj, min_toInt hw]

/-- The absolute value of any word but the least. -/
theorem abs_toInt (hw : 0 < w) (ha : a ≠ 1#w <<< (w - 1)) :
    ((a ^^^ a.sshiftRight (w - 1)) - a.sshiftRight (w - 1)).toInt = |a.toInt| := by
  obtain ⟨hlow, hhigh⟩ := toInt_inRange a
  rw [ne_eq, eq_min_iff a hw] at ha
  rw [sshiftRight_last, xor_sub_signWord, BitVec.msb_eq_toInt]
  by_cases hneg : a.toInt < 0
  · rw [decide_eq_true hneg, if_pos rfl, abs_of_neg hneg, BitVec.toInt_neg]
    rcases bmod_cases hw (x := -a.toInt) (by omega) (by omega) with h | h | h
    · omega
    · omega
    · exact h.2
  · rw [decide_eq_false hneg, abs_of_nonneg (by omega)]
    rfl

end Ranges

/-! ## Sums, differences and absolute values -/

section Sums

variable (a b : BitVec w)

/-- A sum wraps when it moves against the sign of what is added. -/
theorem addvXi3_eq (hw : 0 < w) : addvXi3 a b = trapping w (a.toInt + b.toInt) := by
  obtain ⟨halow, hahigh⟩ := toInt_inRange a
  obtain ⟨hblow, hbhigh⟩ := toInt_inRange b
  have hsum := BitVec.toInt_add a b
  unfold addvXi3 trapping
  dsimp only
  rw [BitVec.ofInt_add, BitVec.ofInt_toInt, BitVec.ofInt_toInt]
  simp only [BitVec.slt_iff_toInt_lt, BitVec.sle_iff_toInt_le, BitVec.toInt_zero]
  rcases bmod_cases hw (x := a.toInt + b.toInt) (by omega) (by omega)
    with ⟨h, hwrap⟩ | ⟨h, hwrap⟩ | ⟨h, hwrap⟩
  · rw [if_neg fun hin : InRange w _ => absurd hin.1 (by omega), if_neg (by omega),
      if_pos (by omega)]
  · rw [if_neg fun hin : InRange w _ => absurd hin.2 (by omega), if_pos (by omega),
      if_pos (by omega)]
  · rw [if_pos h]
    split_ifs <;> first | rfl | omega

theorem subvXi3_eq (hw : 0 < w) : subvXi3 a b = trapping w (a.toInt - b.toInt) := by
  obtain ⟨halow, hahigh⟩ := toInt_inRange a
  obtain ⟨hblow, hbhigh⟩ := toInt_inRange b
  have hdifference := BitVec.toInt_sub (x := a) (y := b)
  unfold subvXi3 trapping
  dsimp only
  rw [Int.sub_eq_add_neg, BitVec.ofInt_add, BitVec.ofInt_neg, BitVec.ofInt_toInt,
    BitVec.ofInt_toInt, ← BitVec.sub_eq_add_neg, ← Int.sub_eq_add_neg]
  simp only [BitVec.slt_iff_toInt_lt, BitVec.sle_iff_toInt_le, BitVec.toInt_zero]
  rcases bmod_cases hw (x := a.toInt - b.toInt) (by omega) (by omega)
    with ⟨h, hwrap⟩ | ⟨h, hwrap⟩ | ⟨h, hwrap⟩
  · rw [if_neg fun hin : InRange w _ => absurd hin.1 (by omega), if_pos (by omega),
      if_pos (by omega)]
  · rw [if_neg fun hin : InRange w _ => absurd hin.2 (by omega), if_neg (by omega),
      if_pos (by omega)]
  · rw [if_pos h]
    split_ifs <;> first | rfl | omega

theorem negvXi2_eq (hw : 0 < w) : negvXi2 a = trapping w (-a.toInt) := by
  obtain ⟨hlow, hhigh⟩ := toInt_inRange a
  have hiff := eq_min_iff a hw
  unfold negvXi2
  by_cases hmin : a = 1#w <<< (w - 1)
  · have hvalue := hiff.1 hmin
    rw [if_pos hmin, trapping, if_neg fun h => absurd h.2 (by omega)]
  · have hvalue := mt hiff.2 hmin
    rw [if_neg hmin, trapping, if_pos ⟨by omega, by omega⟩, BitVec.ofInt_neg, BitVec.ofInt_toInt]

theorem absvXi2_eq (hw : 0 < w) : absvXi2 a = trapping w |a.toInt| := by
  have ha := toInt_inRange a
  unfold InRange at ha
  unfold absvXi2
  by_cases hmin : a = 1#w <<< (w - 1)
  · rw [if_pos hmin, (eq_min_iff a hw).1 hmin, trapping, if_neg]
    rw [abs_neg, abs_of_pos (by positivity)]
    exact fun h => absurd h.2 (lt_irrefl _)
  · have habs := abs_toInt a hw hmin
    rw [if_neg hmin, ← habs, trapping, if_pos (toInt_inRange _), BitVec.ofInt_toInt]

end Sums

/-! ## Products -/

section Products

variable {a b : BitVec w}

/-- The least integer has a product with zero and with one only. -/
theorem inRange_min_mul {y : Int} : InRange w (-2 ^ (w - 1) * y) ↔ y = 0 ∨ y = 1 := by
  have hpos : (0 : Int) < 2 ^ (w - 1) := by positivity
  unfold InRange
  generalize (2 : Int) ^ (w - 1) = M at *
  constructor
  · rintro ⟨hlow, hhigh⟩
    have hle : y ≤ 1 := by
      by_contra hgt
      have := Int.mul_le_mul_of_nonneg_left (show 2 ≤ y by omega) hpos.le
      rw [Int.neg_mul] at hlow
      omega
    have hge : 0 ≤ y := by
      by_contra hlt
      have := Int.mul_le_mul_of_nonneg_left (show y ≤ -1 by omega) hpos.le
      rw [Int.neg_mul] at hhigh
      omega
    omega
  · rintro (rfl | rfl) <;> omega

theorem toInt_ofNat_small {n : Nat} (hw : 2 < w) (hn : n ≤ 2) : (BitVec.ofNat w n).toInt = n := by
  have hpow : (2 : Int) ^ 2 ≤ 2 ^ (w - 1) := pow_le_pow_right₀ (by decide) (by omega)
  rw [← BitVec.ofInt_natCast, BitVec.toInt_ofInt_eq_self (by omega) (by omega) (by omega)]

theorem ofNat_eq_iff {n : Nat} (hw : 2 < w) (hn : n ≤ 2) : b = BitVec.ofNat w n ↔ b.toInt = n := by
  rw [← BitVec.toInt_inj, toInt_ofNat_small hw hn]

/-- A factor below two in absolute value leaves any word but the least in range. -/
theorem inRange_small_mul {x y : Int} (hx : |x| < 2) (hy : InRange w y) (hmin : y ≠ -2 ^ (w - 1)) :
    InRange w (x * y) := by
  obtain ⟨hlow, hhigh⟩ := hy
  have hcases : x = -1 ∨ x = 0 ∨ x = 1 := by
    rw [abs_lt] at hx
    omega
  unfold InRange
  rcases hcases with rfl | rfl | rfl <;> omega

theorem max_toInt (hw : 0 < w) : (~~~(1#w <<< (w - 1))).toInt = 2 ^ (w - 1) - 1 := by
  have hpow : 2 ^ w = 2 * 2 ^ (w - 1) := by
    rw [← Nat.pow_succ', Nat.succ_eq_add_one, Nat.sub_add_cancel hw]
  have hmin : (1#w <<< (w - 1)).toNat = 2 ^ (w - 1) := by
    have htwoPow := BitVec.toNat_twoPow w (w - 1)
    rwa [Nat.mod_eq_of_lt (Nat.pow_lt_pow_right (by decide) (by omega))] at htwoPow
  have hone := Nat.two_pow_pos (w - 1)
  have hcast : (2 : Int) ^ (w - 1) = ((2 ^ (w - 1) : Nat) : Int) := by push_cast; rfl
  rw [BitVec.toInt_eq_toNat_cond, BitVec.toNat_not, hmin, if_pos (by omega), hcast]
  omega

theorem ne_neg_one {y : BitVec w} (hw : 0 < w) (h : y.toInt ≠ -1) : y ≠ -1#w := by
  rintro rfl
  rw [BitVec.neg_one_eq_allOnes, BitVec.toInt_allOnes, if_pos hw] at h
  exact h rfl

theorem ne_zero_of_toInt {y : BitVec w} (h : y.toInt ≠ 0) : y ≠ 0#w := by
  rintro rfl
  exact h BitVec.toInt_zero

/-- The quotient that the product is compared with, for factors of one sign. -/
theorem sameSign_test (hw : 0 < w) {y : BitVec w} (A : Int) (hy : 0 < y.toInt) :
    ∃ q : BitVec w, sdiv (~~~(1#w <<< (w - 1))) y = .ok q ∧
      (q.toInt < A ↔ 2 ^ (w - 1) ≤ A * y.toInt) := by
  have hpos : (0 : Int) < 2 ^ (w - 1) := by positivity
  refine ⟨_, sdiv_ok _ (ne_zero_of_toInt (by omega)), ?_⟩
  rw [BitVec.toInt_sdiv_of_ne_or_ne _ _ (Or.inr (ne_neg_one hw (by omega))), max_toInt hw,
    Int.tdiv_eq_ediv_of_nonneg (by omega), Int.ediv_lt_iff_lt_mul hy]
  omega

/-- The one for factors of different signs.  A divisor of `-1` is excluded. -/
theorem oppositeSign_test (hw : 0 < w) {y : BitVec w} (A : Int) (hy : 1 < y.toInt) :
    ∃ q : BitVec w, sdiv (1#w <<< (w - 1)) (-y) = .ok q ∧
      (q.toInt < A ↔ 2 ^ (w - 1) < A * y.toInt) := by
  have hpos : (0 : Int) < 2 ^ (w - 1) := by positivity
  have hmin : y ≠ BitVec.intMin w := by
    intro h
    have hvalue := (eq_min_iff y hw).1 h
    omega
  have hneg := BitVec.toInt_neg_of_ne_intMin hmin
  refine ⟨_, sdiv_ok _ (ne_zero_of_toInt (by omega)), ?_⟩
  rw [BitVec.toInt_sdiv_of_ne_or_ne _ _ (Or.inr (ne_neg_one hw (by omega))), min_toInt hw, hneg,
    Int.neg_tdiv_neg, Int.tdiv_eq_ediv_of_nonneg hpos.le, Int.ediv_lt_iff_lt_mul (by omega)]

/-- The words of the signs are equal when the signs are. -/
theorem signWord_inj (hw : 0 < w) {s t : Bool} : signWord w s = signWord w t ↔ s = t := by
  have hne : BitVec.allOnes w ≠ 0#w := by
    intro h
    have hvalue := congrArg BitVec.toInt h
    rw [BitVec.toInt_allOnes, if_pos hw, BitVec.toInt_zero] at hvalue
    omega
  cases s <;> cases t <;> simp [signWord, hne, hne.symm]

/-- Past the special cases, by the signs of the factors. -/
theorem inRange_mul_iff {x y : Int} :
    ¬ InRange w (x * y) ↔ if decide (x < 0) = decide (y < 0) then 2 ^ (w - 1) ≤ |x| * |y|
      else 2 ^ (w - 1) < |x| * |y| := by
  have hpos : (0 : Int) < 2 ^ (w - 1) := by positivity
  have hnonneg := mul_nonneg (abs_nonneg x) (abs_nonneg y)
  have hsign : |x| * |y| = if decide (x < 0) = decide (y < 0) then x * y else -(x * y) := by
    by_cases hx : x < 0 <;> by_cases hy : y < 0
    · rw [abs_of_neg hx, abs_of_neg hy, neg_mul_neg]
      simp [hx, hy]
    · rw [abs_of_neg hx, abs_of_nonneg (not_lt.1 hy), neg_mul]
      simp [hx, hy]
    · rw [abs_of_nonneg (not_lt.1 hx), abs_of_neg hy, mul_neg]
      simp [hx, hy]
    · rw [abs_of_nonneg (not_lt.1 hx), abs_of_nonneg (not_lt.1 hy)]
      simp [hx, hy]
  unfold InRange
  split_ifs at hsign ⊢ <;> omega

theorem mulOverflows_ok (hw : 2 < w) (a b : BitVec w) :
    mulOverflows a b = .ok (decide (¬ InRange w (a.toInt * b.toInt))) := by
  have hpos : 0 < w := by omega
  have hzero : ∀ x : BitVec w, x = 0#w ↔ x.toInt = 0 := fun x => ofNat_eq_iff hw (by omega)
  have hone : ∀ x : BitVec w, x = 1#w ↔ x.toInt = 1 := fun x => ofNat_eq_iff hw (by omega)
  unfold mulOverflows
  dsimp only
  by_cases hamin : a = 1#w <<< (w - 1)
  · rw [if_pos hamin, (eq_min_iff a hpos).1 hamin, pure_eq_ok]
    simp only [inRange_min_mul, not_or, ne_eq, hzero, hone]
  by_cases hbmin : b = 1#w <<< (w - 1)
  · rw [if_neg hamin, if_pos hbmin, (eq_min_iff b hpos).1 hbmin, pure_eq_ok, mul_comm]
    simp only [inRange_min_mul, not_or, ne_eq, hzero, hone]
  rw [if_neg hamin, if_neg hbmin]
  have habsA := abs_toInt a hpos hamin
  have habsB := abs_toInt b hpos hbmin
  generalize (a ^^^ a.sshiftRight (w - 1)) - a.sshiftRight (w - 1) = absA at *
  generalize (b ^^^ b.sshiftRight (w - 1)) - b.sshiftRight (w - 1) = absB at *
  have htwo : ((2#w).toInt : Int) = 2 := toInt_ofNat_small hw (by omega)
  simp only [BitVec.slt_iff_toInt_lt, habsA, habsB, htwo]
  by_cases hsmall : |a.toInt| < 2 ∨ |b.toInt| < 2
  · rw [if_pos hsmall, pure_eq_ok, decide_eq_false]
    rw [not_not]
    rcases hsmall with h | h
    · exact inRange_small_mul h (toInt_inRange b) (mt (eq_min_iff b hpos).2 hbmin)
    · rw [mul_comm]
      exact inRange_small_mul h (toInt_inRange a) (mt (eq_min_iff a hpos).2 hamin)
  rw [if_neg hsmall]
  rw [not_or, not_lt, not_lt] at hsmall
  have hsigns : a.sshiftRight (w - 1) = b.sshiftRight (w - 1) ↔
      decide (a.toInt < 0) = decide (b.toInt < 0) := by
    rw [sshiftRight_last, sshiftRight_last, signWord_inj hpos, BitVec.msb_eq_toInt,
      BitVec.msb_eq_toInt]
  have hiff := inRange_mul_iff (w := w) (x := a.toInt) (y := b.toInt)
  by_cases hsame : a.sshiftRight (w - 1) = b.sshiftRight (w - 1)
  · obtain ⟨q, hq, htest⟩ := sameSign_test hpos (y := absB) |a.toInt| (by omega)
    rw [if_pos (hsigns.1 hsame), ← habsB, ← htest] at hiff
    rw [if_pos hsame, hq, ok_bind, pure_eq_ok, BitVec.slt_eq_decide, habsA]
    simp only [hiff]
  · obtain ⟨q, hq, htest⟩ := oppositeSign_test hpos (y := absB) |a.toInt| (by omega)
    rw [if_neg (mt hsigns.2 hsame), ← habsB, ← htest] at hiff
    rw [if_neg hsame, hq, ok_bind, pure_eq_ok, BitVec.slt_eq_decide, habsA]
    simp only [hiff]

theorem mulvXi3_eq (hw : 2 < w) (a b : BitVec w) :
    mulvXi3 a b = .ok (trapping w (a.toInt * b.toInt)) := by
  rw [mulvXi3, mulOverflows_ok hw, ok_bind, trapping, BitVec.ofInt_mul, BitVec.ofInt_toInt,
    BitVec.ofInt_toInt]
  by_cases h : InRange w (a.toInt * b.toInt) <;> simp [h]

theorem muloXi4_eq (hw : 2 < w) (a b : BitVec w) :
    muloXi4 a b = .ok (a * b, (trapping w (a.toInt * b.toInt)).isNone) := by
  rw [muloXi4, mulOverflows_ok hw, ok_bind, trapping]
  by_cases h : InRange w (a.toInt * b.toInt) <;> simp [h]

end Products

/-! ## Together -/

/-- Routines that notice overflow exactly: they give the exact result when the type
has it, and abort or set the flag when the type does not. -/
structure CheckedArithmetic (addv subv : BitVec w → BitVec w → Option (BitVec w))
    (negv absv : BitVec w → Option (BitVec w))
    (mulv : BitVec w → BitVec w → Checked (Option (BitVec w)))
    (mulo : BitVec w → BitVec w → Checked (BitVec w × Bool)) : Prop where
  addv_eq (a b : BitVec w) : addv a b = trapping w (a.toInt + b.toInt)
  subv_eq (a b : BitVec w) : subv a b = trapping w (a.toInt - b.toInt)
  negv_eq (a : BitVec w) : negv a = trapping w (-a.toInt)
  absv_eq (a : BitVec w) : absv a = trapping w |a.toInt|
  mulv_eq (a b : BitVec w) : mulv a b = .ok (trapping w (a.toInt * b.toInt))
  mulo_eq (a b : BitVec w) : mulo a b = .ok (a * b, (trapping w (a.toInt * b.toInt)).isNone)

theorem checkedArithmetic_of_width (hw : 2 < w) :
    CheckedArithmetic (w := w) addvXi3 subvXi3 negvXi2 absvXi2 mulvXi3 muloXi4 where
  addv_eq a b := addvXi3_eq a b (by omega)
  subv_eq a b := subvXi3_eq a b (by omega)
  negv_eq a := negvXi2_eq a (by omega)
  absv_eq a := absvXi2_eq a (by omega)
  mulv_eq := mulvXi3_eq hw
  mulo_eq := muloXi4_eq hw

/-- The routines of all three widths. -/
theorem checked_arithmetic :
    CheckedArithmetic addvsi3 subvsi3 negvsi2 absvsi2 mulvsi3 mulosi4 ∧
      CheckedArithmetic addvdi3 subvdi3 negvdi2 absvdi2 mulvdi3 mulodi4 ∧
      CheckedArithmetic addvti3 subvti3 negvti2 absvti2 mulvti3 muloti4 :=
  ⟨checkedArithmetic_of_width (by decide), checkedArithmetic_of_width (by decide),
    checkedArithmetic_of_width (by decide)⟩

/-- `__muldi3` and `__multi3` are the product modulo the size of the word. -/
theorem muldi3_multi3_eq (a b : BitVec 64) (c d : BitVec 128) :
    muldi3 a b = a * b ∧ multi3 c d = c * d :=
  ⟨mulXi3_eq (w := 32) (h := 16) rfl a b, mulXi3_eq (w := 64) (h := 32) rfl c d⟩

end Cheesecloth.Builtins.IntMul
