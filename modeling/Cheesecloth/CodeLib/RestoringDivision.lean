import Cheesecloth.CodeLib.Bits

/-!
# Restoring division

Division that takes the bits of the dividend from the top, and subtracts the
divisor from what it has taken whenever it can.

* `Restored`: the quotient and the remainder of the bits taken so far.  It is
  set up by `Restored.start`, moved on by `Restored.step`, and at the last bit it
  is the division (`Restored.div_mod`).
* `register`: the word that holds the bits that are left above the bits of the
  quotient.
* `borrowMask_eq`: the comparison by the sign of a difference, without a branch.
-/

namespace Cheesecloth.CodeLib

/-! ## The bits taken so far -/

/-- `q` and `r` divide the bits of `n` above the last `k` by `d`. -/
structure Restored (n d k q r : Nat) : Prop where
  split : n / 2 ^ k = q * d + r
  rem_lt : r < d

namespace Restored

variable {n d k q r : Nat}

/-- Before the first quotient bit. -/
theorem start (h : n / 2 ^ k < d) : Restored n d k 0 (n / 2 ^ k) :=
  ⟨by omega, h⟩

/-- The bits above the last `k` are those above the last `k + 1` and one more. -/
theorem div_two_pow_succ (n k : Nat) : n / 2 ^ k = 2 * (n / 2 ^ (k + 1)) + n / 2 ^ k % 2 := by
  rw [Nat.pow_succ, ← Nat.div_div_eq_div_mul]
  omega

/-- One bit more.  The divisor goes into the shifted remainder at most once. -/
theorem step (h : Restored n d (k + 1) q r) :
    if d ≤ 2 * r + n / 2 ^ k % 2 then Restored n d k (2 * q + 1) (2 * r + n / 2 ^ k % 2 - d)
    else Restored n d k (2 * q) (2 * r + n / 2 ^ k % 2) := by
  have hbit := div_two_pow_succ n k
  have hlt := h.rem_lt
  rw [h.split] at hbit
  have hdouble : 2 * (q * d + r) = 2 * q * d + 2 * r := by ring
  split_ifs with hle
  · refine ⟨?_, by omega⟩
    rw [Nat.add_mul, Nat.one_mul]
    omega
  · exact ⟨by omega, by omega⟩

/-- With no bit left this is the division. -/
theorem div_mod (h : Restored n d 0 q r) : q = n / d ∧ r = n % d := by
  have hsplit := h.split
  rw [Nat.pow_zero, Nat.div_one] at hsplit
  have hpos : 0 < d := Nat.lt_of_le_of_lt (Nat.zero_le r) h.rem_lt
  have hdiv := (Nat.div_mod_unique (a := n) (c := r) (d := q) hpos).2
    ⟨by rw [hsplit, Nat.mul_comm, Nat.add_comm], h.rem_lt⟩
  exact ⟨hdiv.1.symm, hdiv.2.symm⟩

theorem quotient_le (h : Restored n d k q r) : q ≤ n / 2 ^ k := by
  rw [h.split]
  have hpos : 0 < d := Nat.lt_of_le_of_lt (Nat.zero_le r) h.rem_lt
  exact Nat.le_add_right_of_le (Nat.le_mul_of_pos_right q hpos)

end Restored

/-! ## The register -/

/-- The last `k` bits of `n` at the top of a word of `w` bits, above `q`. -/
def register (w n k q : Nat) : Nat := n % 2 ^ k * 2 ^ (w - k) + q

section Register

variable {w n k q : Nat}

/-- The top bit of the register is the next bit of the dividend. -/
theorem register_div (hk : k < w) (hq : q < 2 ^ (w - (k + 1))) :
    register w n (k + 1) q / 2 ^ (w - 1) = n / 2 ^ k % 2 := by
  have hpow : 2 ^ (w - 1) = 2 ^ k * 2 ^ (w - (k + 1)) := by
    rw [← Nat.pow_add]
    congr 1
    omega
  rw [register, hpow, Nat.mul_comm (2 ^ k), ← Nat.div_div_eq_div_mul, Nat.add_comm,
    Nat.add_mul_div_right _ _ (Nat.two_pow_pos _), Nat.div_eq_of_lt hq, Nat.zero_add,
    Nat.pow_succ, Nat.mod_mul_right_div_self]

/-- The shift of the register drops that bit and makes room for one of the
quotient. -/
theorem register_shift (hk : k < w) {c : Nat} (hq : 2 * q + c < 2 ^ (w - k)) :
    (register w n (k + 1) q * 2 + c) % 2 ^ w = register w n k (2 * q + c) := by
  have hpow : 2 ^ w = 2 ^ k * 2 ^ (w - k) := by
    rw [← Nat.pow_add, Nat.add_sub_cancel' (Nat.le_of_lt hk)]
  have hnext : 2 ^ (w - k) = 2 ^ (w - (k + 1)) * 2 := by
    rw [← Nat.pow_succ]
    congr 1
    omega
  have hbit : n % 2 ^ (k + 1) = n % 2 ^ k + 2 ^ k * (n / 2 ^ k % 2) := by
    rw [Nat.pow_succ, Nat.mod_mul]
  have hlt : n % 2 ^ k * 2 ^ (w - k) + (2 * q + c) < 2 ^ w := by
    have hle : (n % 2 ^ k + 1) * 2 ^ (w - k) ≤ 2 ^ k * 2 ^ (w - k) :=
      Nat.mul_le_mul_right _ (Nat.mod_lt _ (Nat.two_pow_pos k))
    rw [Nat.add_mul, Nat.one_mul] at hle
    omega
  have hregister : register w n (k + 1) q * 2 + c =
      n % 2 ^ k * 2 ^ (w - k) + (2 * q + c) + 2 ^ w * (n / 2 ^ k % 2) := by
    rw [register, hbit, hpow, hnext]
    ring
  rw [hregister, Nat.add_mul_mod_self_left, Nat.mod_eq_of_lt hlt, register]

theorem register_zero : register w n 0 q = q := by
  rw [register, Nat.pow_zero, Nat.mod_one, Nat.zero_mul, Nat.zero_add]

end Register

/-! ## The comparison -/

section Comparison

variable {w : Nat} {d r : BitVec w}

/-- The sign of `d - r - 1` tells whether `r >= d`, if the two are less than half
the range apart. -/
theorem borrowMask_eq (hr : r.toNat < d.toNat + 2 ^ (w - 1))
    (hd : d.toNat ≤ r.toNat + 2 ^ (w - 1)) :
    (d - r - 1#w).sshiftRight (w - 1) =
      if d.toNat ≤ r.toNat then BitVec.allOnes w else 0#w := by
  rcases Nat.eq_zero_or_pos w with rfl | hw
  · exact Subsingleton.elim _ _
  have hpow : 2 ^ w = 2 * 2 ^ (w - 1) := by
    rw [← Nat.pow_succ', Nat.succ_eq_add_one, Nat.sub_add_cancel hw]
  have hone : (1#w).toNat = 1 := by
    rw [BitVec.toNat_ofNat, Nat.mod_eq_of_lt (Nat.one_lt_two_pow (by omega))]
  have hrlt := r.isLt
  have hdlt := d.isLt
  have hpos := Nat.two_pow_pos (w - 1)
  split_ifs with hle
  · apply Bits.signMask_of_msb
    have hdiff : (d - r).toNat = if d.toNat = r.toNat then 0 else 2 ^ w - r.toNat + d.toNat := by
      rw [BitVec.toNat_sub]
      split_ifs with heq
      · rw [heq, Nat.sub_add_cancel hrlt.le, Nat.mod_self]
      · exact Nat.mod_eq_of_lt (by omega)
    rw [BitVec.toNat_sub, hone, hdiff]
    split_ifs with heq
    · rw [Nat.mod_eq_of_lt (by omega)]
      omega
    · rw [Nat.mod_eq_sub_mod (by omega), Nat.mod_eq_of_lt (by omega)]
      omega
  · apply Bits.signMask_of_not_msb
    have hsub : (d - r).toNat = d.toNat - r.toNat := BitVec.toNat_sub_of_le (by
      rw [BitVec.le_def]
      omega)
    have hpred : (d - r - 1#w).toNat = (d - r).toNat - (1#w).toNat := BitVec.toNat_sub_of_le (by
      rw [BitVec.le_def]
      omega)
    rw [hpred, hsub, hone]
    omega

end Comparison

end Cheesecloth.CodeLib
