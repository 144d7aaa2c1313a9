import Mathlib.Data.Nat.Dist
import Cheesecloth.CodeLib.NearestEven

/-!
# Patterns of a binary floating-point format

A pattern is a bit pattern without its sign: an exponent field above `p`
significand bits, read as one natural number.  Every finite value is a
multiple of the least positive one, so the value of a pattern, in that unit,
is a natural number too (`magnitude`).

* Patterns are ordered as their values are (`magnitude_strictMono`).  The next
  pattern is the next value.
* `IsNearest p n d m`: the pattern `m` is the nearest one to `n / d`, ties to
  the even pattern.
* `roundPattern p j n` is the nearest pattern to `n / 2 ^ j`
  (`roundPattern_isNearest`).
* A value of the format rounds to itself (`roundPattern_magnitude`).
* One step of the exponent doubles a value (`magnitude_add_two_pow`), and a
  number halved with a sticky bit rounds to the pattern one step below
  (`roundPattern_stickyShift`).

Exponents are unbounded here.  A format caps them, and
`CodeLib.Interchange` adds the cap, the sign and the scale.
-/

namespace Cheesecloth.CodeLib

/-- The value of a pattern with `p` significand bits, in units of the least
positive value. -/
def magnitude (p m : Nat) : Nat :=
  if m / 2 ^ p = 0 then m else (2 ^ p + m % 2 ^ p) * 2 ^ (m / 2 ^ p - 1)

/-! ## The order of patterns -/

section Order

variable {p : Nat}

/-- A pattern in parts: `k` steps of the exponent and a significand `s`.  The
significand may be the upper bound `2 ^ (p + 1)` itself, which is the carry
into the exponent. -/
theorem magnitude_parts {k s : Nat} (hk : k = 0 ∨ 2 ^ p ≤ s) (hs : s ≤ 2 ^ (p + 1)) :
    magnitude p (k * 2 ^ p + s) = s * 2 ^ k := by
  have hp := Nat.two_pow_pos p
  rw [Nat.pow_succ] at hs
  unfold magnitude
  rcases Nat.lt_or_ge s (2 ^ p) with hlow | hhigh
  · obtain rfl : k = 0 := by omega
    rw [Nat.zero_mul, Nat.zero_add, Nat.div_eq_of_lt hlow, if_pos rfl, Nat.pow_zero, Nat.mul_one]
  · rcases Nat.eq_or_lt_of_le hs with rfl | hlt
    · have hdiv : (k * 2 ^ p + 2 ^ p * 2) / 2 ^ p = k + 2 := by
        rw [show k * 2 ^ p + 2 ^ p * 2 = (k + 2) * 2 ^ p by ring, Nat.mul_div_cancel _ hp]
      have hmod : (k * 2 ^ p + 2 ^ p * 2) % 2 ^ p = 0 := by
        rw [show k * 2 ^ p + 2 ^ p * 2 = (k + 2) * 2 ^ p by ring, Nat.mul_mod_left]
      rw [hdiv, hmod, if_neg (by omega), show k + 2 - 1 = k + 1 by omega, Nat.pow_succ]
      ring
    · obtain ⟨t, rfl⟩ : ∃ t, s = 2 ^ p + t := ⟨s - 2 ^ p, by omega⟩
      have ht : t < 2 ^ p := by omega
      have hsum : k * 2 ^ p + (2 ^ p + t) = 2 ^ p * (k + 1) + t := by ring
      rw [hsum, Nat.mul_add_div hp, Nat.mul_add_mod, Nat.div_eq_of_lt ht, Nat.mod_eq_of_lt ht,
        if_neg (by omega)]
      rfl

/-- Every pattern has parts. -/
theorem exists_parts (p m : Nat) :
    ∃ k s, m = k * 2 ^ p + s ∧ (k = 0 ∨ 2 ^ p ≤ s) ∧ s < 2 ^ (p + 1) := by
  have hp := Nat.two_pow_pos p
  have hmod := Nat.mod_lt m hp
  have hsplit := Nat.div_add_mod' m (2 ^ p)
  rcases Nat.eq_zero_or_pos (m / 2 ^ p) with h0 | hpos
  · refine ⟨0, m, by simp, Or.inl rfl, ?_⟩
    rw [h0] at hsplit
    rw [Nat.pow_succ]
    omega
  · obtain ⟨k, hk⟩ := Nat.exists_eq_add_one.2 hpos
    refine ⟨k, 2 ^ p + m % 2 ^ p, ?_, Or.inr (Nat.le_add_right _ _), ?_⟩
    · rw [hk, Nat.add_mul, Nat.one_mul] at hsplit
      omega
    · rw [Nat.pow_succ]
      omega

theorem magnitude_lt_succ (p m : Nat) : magnitude p m < magnitude p (m + 1) := by
  obtain ⟨k, s, rfl, hk, hs⟩ := exists_parts p m
  rw [Nat.add_assoc, magnitude_parts hk (Nat.le_of_lt hs),
    magnitude_parts (hk.imp_right fun h => Nat.le_succ_of_le h) hs]
  exact Nat.mul_lt_mul_of_pos_right (Nat.lt_succ_self s) (Nat.two_pow_pos k)

/-- A larger pattern is a larger value. -/
theorem magnitude_strictMono (p : Nat) : StrictMono (magnitude p) :=
  strictMono_nat_of_lt_succ (magnitude_lt_succ p)

/-- One step of the exponent doubles the value of a normal pattern. -/
theorem magnitude_add_two_pow {m : Nat} (h : 2 ^ p ≤ m) :
    magnitude p (m + 2 ^ p) = 2 * magnitude p m := by
  obtain ⟨k, s, rfl, hk, hs⟩ := exists_parts p m
  have hge : 2 ^ p ≤ s := by
    rcases hk with rfl | hge
    · omega
    · exact hge
  rw [show k * 2 ^ p + s + 2 ^ p = (k + 1) * 2 ^ p + s by ring,
    magnitude_parts (Or.inr hge) (Nat.le_of_lt hs), magnitude_parts (Or.inr hge) (Nat.le_of_lt hs),
    Nat.pow_succ]
  ring

@[simp] theorem magnitude_zero (p : Nat) : magnitude p 0 = 0 := by
  simp [magnitude]

theorem magnitude_pos {m : Nat} (h : 0 < m) : 0 < magnitude p m := by
  simpa using magnitude_strictMono p h

end Order

/-! ## The nearest pattern -/

/-- No pattern is nearer to `n / d` than `m`, and an equally near one is there
only when `m` is even. -/
structure IsNearest (p n d m : Nat) : Prop where
  dist_le : ∀ c, Nat.dist n (magnitude p m * d) ≤ Nat.dist n (magnitude p c * d)
  even : ∀ c, c ≠ m → Nat.dist n (magnitude p m * d) = Nat.dist n (magnitude p c * d) →
    m % 2 = 0

/-- The number of low bits that the nearest pattern of `n / 2 ^ j` drops above
the `j` fraction bits. -/
def dropped (p j n : Nat) : Nat := n.log2 - (p + j)

/-- The pattern nearest to `n / 2 ^ j`, ties to the even pattern. -/
def roundPattern (p j n : Nat) : Nat :=
  dropped p j n * 2 ^ p + roundShift n (dropped p j n + j)

/-- The pattern of `n / 2 ^ j` rounded down. -/
def floorPattern (p j n : Nat) : Nat :=
  dropped p j n * 2 ^ p + n / 2 ^ (dropped p j n + j)

section Nearest

variable (p j n : Nat)

/-- The truncated significand is one: it is below `2 ^ (p + 1)`, and it has its
leading bit whenever bits are dropped. -/
theorem quotient_parts :
    (dropped p j n = 0 ∨ 2 ^ p ≤ n / 2 ^ (dropped p j n + j)) ∧
      n / 2 ^ (dropped p j n + j) < 2 ^ (p + 1) := by
  have hlt := Nat.lt_log2_self (n := n)
  constructor
  · rcases Nat.eq_zero_or_pos (dropped p j n) with h | h
    · exact Or.inl h
    · unfold dropped at h
      have hn : n ≠ 0 := by
        rintro rfl
        simp at h
      right
      rw [Nat.le_div_iff_mul_le (Nat.two_pow_pos _), ← Nat.pow_add, ← Nat.le_log2 hn]
      unfold dropped
      omega
  · rw [Nat.div_lt_iff_lt_mul (Nat.two_pow_pos _), ← Nat.pow_add]
    refine Nat.lt_of_lt_of_le hlt (Nat.pow_le_pow_right (by decide) ?_)
    unfold dropped
    omega

theorem magnitude_floorPattern :
    magnitude p (floorPattern p j n) = n / 2 ^ (dropped p j n + j) * 2 ^ dropped p j n := by
  obtain ⟨hk, hs⟩ := quotient_parts p j n
  exact magnitude_parts hk (Nat.le_of_lt hs)

theorem magnitude_floorPattern_succ :
    magnitude p (floorPattern p j n + 1) =
      (n / 2 ^ (dropped p j n + j) + 1) * 2 ^ dropped p j n := by
  obtain ⟨hk, hs⟩ := quotient_parts p j n
  unfold floorPattern
  rw [Nat.add_assoc]
  exact magnitude_parts (hk.imp_right Nat.le_succ_of_le) hs

/-- The distance from `n` down to the pattern below it, and up to the next,
in units of `2 ^ -j`. -/
theorem floorPattern_bracket :
    magnitude p (floorPattern p j n) * 2 ^ j + n % 2 ^ (dropped p j n + j) = n ∧
      magnitude p (floorPattern p j n + 1) * 2 ^ j
        = n + (2 ^ (dropped p j n + j) - n % 2 ^ (dropped p j n + j)) := by
  have hsplit := Nat.div_add_mod' n (2 ^ (dropped p j n + j))
  have hmod := Nat.mod_lt n (Nat.two_pow_pos (dropped p j n + j))
  have hscale : ∀ q : Nat, q * 2 ^ dropped p j n * 2 ^ j = q * 2 ^ (dropped p j n + j) := by
    intro q
    rw [Nat.pow_add, Nat.mul_assoc]
  rw [magnitude_floorPattern, magnitude_floorPattern_succ, hscale, hscale, Nat.add_mul]
  omega

/-- The nearest pattern is the one below or the next, as the dropped bits are
below or above half, and the even one of the two at half. -/
theorem roundPattern_cases (hp : 0 < p) :
    2 * (n % 2 ^ (dropped p j n + j)) < 2 ^ (dropped p j n + j) ∧
        roundPattern p j n = floorPattern p j n ∨
      2 ^ (dropped p j n + j) < 2 * (n % 2 ^ (dropped p j n + j)) ∧
        roundPattern p j n = floorPattern p j n + 1 ∨
      2 * (n % 2 ^ (dropped p j n + j)) = 2 ^ (dropped p j n + j) ∧
        roundPattern p j n % 2 = 0 ∧
        (roundPattern p j n = floorPattern p j n ∨
          roundPattern p j n = floorPattern p j n + 1) := by
  obtain ⟨i, rfl⟩ := Nat.exists_eq_add_one.2 hp
  have hparity : ∀ q : Nat, (dropped (i + 1) j n * 2 ^ (i + 1) + q) % 2 = q % 2 := by
    intro q
    rw [Nat.pow_succ, ← Nat.mul_assoc]
    omega
  unfold roundPattern floorPattern roundShift
  split_ifs with h1 h2
  · exact Or.inl ⟨h1, rfl⟩
  · exact Or.inr (Or.inl ⟨h2, rfl⟩)
  · refine Or.inr (Or.inr ⟨by omega, ?_, by omega⟩)
    rw [hparity]
    omega

/-- Every other pattern lies outside the two neighbours of `n / 2 ^ j`. -/
theorem outside_bracket (m : Nat) :
    m = floorPattern p j n ∨ m = floorPattern p j n + 1 ∨
      magnitude p m * 2 ^ j < magnitude p (floorPattern p j n) * 2 ^ j ∨
      magnitude p (floorPattern p j n + 1) * 2 ^ j < magnitude p m * 2 ^ j := by
  have hpos : 0 < 2 ^ j := Nat.two_pow_pos j
  rcases Nat.lt_trichotomy m (floorPattern p j n) with h | h | h
  · exact Or.inr (Or.inr (Or.inl (Nat.mul_lt_mul_of_pos_right (magnitude_strictMono p h) hpos)))
  · exact Or.inl h
  · rcases Nat.eq_or_lt_of_le h with h | h
    · exact Or.inr (Or.inl h.symm)
    · exact Or.inr (Or.inr (Or.inr
        (Nat.mul_lt_mul_of_pos_right (magnitude_strictMono p h) hpos)))

/-- No pattern is nearer to `n / 2 ^ j`, and an equally near one is there only
when the chosen pattern is even. -/
theorem roundPattern_nearest_or_even (hp : 0 < p) (m : Nat) :
    Nat.dist n (magnitude p (roundPattern p j n) * 2 ^ j) ≤ Nat.dist n (magnitude p m * 2 ^ j) ∧
      (m ≠ roundPattern p j n →
        Nat.dist n (magnitude p (roundPattern p j n) * 2 ^ j) = Nat.dist n (magnitude p m * 2 ^ j) →
        roundPattern p j n % 2 = 0) := by
  obtain ⟨hlow, hhigh⟩ := floorPattern_bracket p j n
  have hmod := Nat.mod_lt n (Nat.two_pow_pos (dropped p j n + j))
  have hcases := roundPattern_cases p j n hp
  have houtside := outside_bracket p j n m
  unfold Nat.dist
  rcases hcases with ⟨hr, hround⟩ | ⟨hr, hround⟩ | ⟨hr, heven, hround | hround⟩
  all_goals
    rw [hround]
    rcases houtside with rfl | rfl | h | h <;> omega

theorem roundPattern_isNearest (hp : 0 < p) : IsNearest p n (2 ^ j) (roundPattern p j n) where
  dist_le c := (roundPattern_nearest_or_even p j n hp c).1
  even c := (roundPattern_nearest_or_even p j n hp c).2

end Nearest

/-! ## Exact patterns and scaling -/

theorem log2_mul_two_pow {n : Nat} (hn : 0 < n) (i : Nat) : (n * 2 ^ i).log2 = n.log2 + i := by
  rw [Nat.log2_eq_iff (Nat.ne_of_gt (Nat.mul_pos hn (Nat.two_pow_pos i))), Nat.pow_add,
    Nat.add_right_comm, Nat.pow_add _ (n.log2 + 1)]
  exact ⟨Nat.mul_le_mul_right _ (Nat.log2_self_le (Nat.ne_of_gt hn)),
    Nat.mul_lt_mul_of_pos_right Nat.lt_log2_self (Nat.two_pow_pos i)⟩

/-- Fraction bits that are all zero do not matter. -/
theorem roundPattern_mul_two_pow (p j n i : Nat) :
    roundPattern p (j + i) (n * 2 ^ i) = roundPattern p j n := by
  have hdropped : dropped p (j + i) (n * 2 ^ i) = dropped p j n := by
    unfold dropped
    rcases Nat.eq_zero_or_pos n with rfl | hn
    · simp
    · rw [log2_mul_two_pow hn]
      omega
  unfold roundPattern
  rw [hdropped, ← Nat.add_assoc, roundShift_mul_two_pow]

@[simp] theorem roundPattern_zero (p j : Nat) : roundPattern p j 0 = 0 := by
  simp [roundPattern, dropped]

/-- A number of `p + 1` bits, scaled, is the value of a pattern. -/
theorem exists_magnitude_eq {p c : Nat} (k : Nat) (hc : c < 2 ^ (p + 1)) :
    ∃ m, magnitude p m = c * 2 ^ k := by
  induction k generalizing c with
  | zero => exact ⟨0 * 2 ^ p + c, magnitude_parts (Or.inl rfl) (Nat.le_of_lt hc)⟩
  | succ k ih =>
    rcases Nat.lt_or_ge c (2 ^ p) with hlow | hhigh
    · obtain ⟨m, hm⟩ := ih (c := 2 * c) (by rw [Nat.pow_succ]; omega)
      refine ⟨m, hm.trans ?_⟩
      ring
    · exact ⟨(k + 1) * 2 ^ p + c, magnitude_parts (Or.inr hhigh) (Nat.le_of_lt hc)⟩

/-- A value of the format rounds to its own pattern. -/
theorem roundPattern_magnitude (p m : Nat) : roundPattern p 0 (magnitude p m) = m := by
  obtain ⟨k, s, rfl, hk, hs⟩ := exists_parts p m
  rw [magnitude_parts hk (Nat.le_of_lt hs)]
  have hdropped : dropped p 0 (s * 2 ^ k) = k := by
    unfold dropped
    rcases hk with rfl | hge
    · rcases Nat.eq_zero_or_pos s with rfl | hpos
      · simp
      · have : (s * 2 ^ 0).log2 < p + 1 := by
          rw [Nat.pow_zero, Nat.mul_one, Nat.log2_lt (Nat.ne_of_gt hpos)]
          exact hs
        omega
    · have hpos : 0 < s := Nat.lt_of_lt_of_le (Nat.two_pow_pos p) hge
      have hlog : s.log2 = p := (Nat.log2_eq_iff (Nat.ne_of_gt hpos)).2 ⟨hge, hs⟩
      rw [log2_mul_two_pow hpos, hlog]
      omega
  unfold roundPattern
  rw [hdropped, Nat.add_zero, roundShift_mul_two_pow_self]

/-! ## Natural numbers -/

/-- The leading `p + 1` bits of `n`, rounded to nearest, ties to even.  The
carry of the rounding may be one bit more. -/
def roundLead (p n : Nat) : Nat :=
  if n.log2 ≤ p then n * 2 ^ (p - n.log2) else roundShift n (n.log2 - p)

/-- The nearest pattern of a natural number, `c` places above the least
value. -/
theorem roundPattern_natural {p c n : Nat} (hn : 0 < n) (hc : p ≤ c) :
    roundPattern p 0 (n * 2 ^ c) = (n.log2 + c - p) * 2 ^ p + roundLead p n := by
  have hdropped : dropped p 0 (n * 2 ^ c) = n.log2 + c - p := by
    rw [dropped, Nat.add_zero, log2_mul_two_pow hn]
  unfold roundPattern roundLead
  rw [hdropped, Nat.add_zero]
  congr 1
  split_ifs with hlog
  · have hsplit : n * 2 ^ c = n * 2 ^ (p - n.log2) * 2 ^ (n.log2 + c - p) := by
      rw [Nat.mul_assoc, ← Nat.pow_add]
      congr 2
      omega
    rw [hsplit, roundShift_mul_two_pow_self]
  · rw [show n.log2 + c - p = n.log2 - p + c by omega, roundShift_mul_two_pow]

/-- Halving with a sticky bit only lowers the exponent, as long as the
rounding drops two bits more. -/
theorem roundPattern_stickyShift {p c n : Nat} (hc : p ≤ c) (hn : p + 3 ≤ n.log2) :
    roundPattern p 0 (n * 2 ^ c) = roundPattern p 0 (stickyShift n 1 * 2 ^ c) + 2 ^ p := by
  have hpos : 0 < n := by
    apply Nat.pos_of_ne_zero
    rintro rfl
    simp at hn
  have hge := le_stickyShift n 1
  have hle := stickyShift_lt (n := n) (k := 1) (m := n.log2) (by omega)
    (by rw [Nat.add_comm]; exact Nat.lt_log2_self)
  have hself := Nat.log2_self_le (Nat.ne_of_gt hpos)
  obtain ⟨l, hl⟩ : ∃ l, n.log2 = l + 1 := ⟨n.log2 - 1, by omega⟩
  rw [hl] at hle hself
  rw [Nat.pow_succ] at hself
  have hlog : (stickyShift n 1).log2 = l := by
    rw [Nat.log2_eq_iff (by omega)]
    omega
  have hround := roundShift_stickyShift n 1 (j := l - p) (by omega)
  rw [roundPattern_natural hpos hc, roundPattern_natural (by omega) hc, roundLead, roundLead, hlog,
    hl, if_neg (by omega), if_neg (by omega), hround, show 1 + (l - p) = l + 1 - p by omega,
    show l + 1 + c - p = l + c - p + 1 by omega]
  ring

end Cheesecloth.CodeLib
