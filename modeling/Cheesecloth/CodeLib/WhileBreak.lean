import Cheesecloth.CodeLib.Checked

/-!
# Loops that test, update, and may break

The loop `while (test s) { s = body s; if (brk s) break; }` as a value, its
executions, and the rule that proves a bound on the iterations and a
postcondition at once.

`run` records the states at which the loop test was evaluated.  A statement
about an operand of the test is a statement about the members of `tested`.
-/

namespace Cheesecloth.CodeLib

/-- `while (test s) { s = body s; if (brk s) break; }`. -/
structure WhileBreak (σ : Type) where
  test : σ → Bool
  body : σ → σ
  brk : σ → Bool

/-- A finished execution: the last state, the states at which the test was
evaluated, in order, and the number of times the body ran. -/
structure LoopRun (σ : Type) where
  final : σ
  tested : List σ
  iterations : Nat
  deriving DecidableEq, Repr

namespace WhileBreak

variable {σ : Type}

/-- Run the loop from `s`.  Each evaluation of the test uses one unit of
fuel. -/
def run (L : WhileBreak σ) : Nat → σ → Checked (LoopRun σ)
  | 0, _ => .error .fuel
  | fuel + 1, s =>
    if L.test s then
      let s' := L.body s
      if L.brk s' then
        .ok ⟨s', [s], 1⟩
      else do
        let r ← L.run fuel s'
        return ⟨r.final, s :: r.tested, r.iterations + 1⟩
    else
      .ok ⟨s, [s], 0⟩

/-! ## One evaluation of the test -/

variable {L : WhileBreak σ} {s : σ} {fuel : Nat}

theorem run_exit (htest : L.test s = false) :
    L.run (fuel + 1) s = .ok ⟨s, [s], 0⟩ := by
  simp [run, htest]

theorem run_break (htest : L.test s = true) (hbrk : L.brk (L.body s) = true) :
    L.run (fuel + 1) s = .ok ⟨L.body s, [s], 1⟩ := by
  simp [run, htest, hbrk]

theorem run_next {r : LoopRun σ} (htest : L.test s = true)
    (hbrk : L.brk (L.body s) = false) (hr : L.run fuel (L.body s) = .ok r) :
    L.run (fuel + 1) s = .ok ⟨r.final, s :: r.tested, r.iterations + 1⟩ := by
  simp [run, htest, hbrk, hr]

/-! ## The rule -/

/-- What a loop with invariant `Inv` guarantees.  `Inv n s` speaks of a state
`s` that reaches the test after `n` iterations. -/
structure Guarantee (Inv : Nat → σ → Prop) (Post : σ → Prop) (bound n : Nat)
    (r : LoopRun σ) : Prop where
  post : Post r.final
  iterations_le : n + r.iterations ≤ bound
  tested_inv : ∀ t ∈ r.tested, ∃ m, Inv m t

/-- A loop whose test holds only below `bound` iterations, and whose body
keeps `Inv` or breaks with `Post`, ends within `bound` iterations.  The state
`s` has already run `n` of them. -/
theorem run_from (L : WhileBreak σ) (Inv : Nat → σ → Prop) (Post : σ → Prop) (bound : Nat)
    (hbound : ∀ n s, Inv n s → L.test s = true → n < bound)
    (hbreak : ∀ n s, Inv n s → L.test s = true → L.brk (L.body s) = true → Post (L.body s))
    (hnext : ∀ n s, Inv n s → L.test s = true → L.brk (L.body s) = false →
      Inv (n + 1) (L.body s))
    (hexit : ∀ n s, Inv n s → L.test s = false → Post s) :
    ∀ (fuel n : Nat) (s : σ), n ≤ bound → bound < n + fuel → Inv n s →
      ∃ r, L.run fuel s = .ok r ∧ Guarantee Inv Post bound n r := by
  intro fuel
  induction fuel with
  | zero =>
    intro n s hn hfuel _
    omega
  | succ fuel ih =>
    intro n s hn hfuel hinv
    have hself : ∀ t ∈ [s], ∃ m, Inv m t := by
      intro t ht
      rw [List.mem_singleton] at ht
      exact ⟨n, ht ▸ hinv⟩
    cases htest : L.test s with
    | false => exact ⟨_, run_exit htest, hexit n s hinv htest, hn, hself⟩
    | true =>
      have hlt := hbound n s hinv htest
      cases hbrk : L.brk (L.body s) with
      | true => exact ⟨_, run_break htest hbrk, hbreak n s hinv htest hbrk, hlt, hself⟩
      | false =>
        obtain ⟨r, hr, hpost, hiter, htested⟩ :=
          ih (n + 1) (L.body s) hlt (by omega) (hnext n s hinv htest hbrk)
        refine ⟨_, run_next htest hbrk hr, hpost, ?_, ?_⟩
        · show n + (r.iterations + 1) ≤ bound
          omega
        · intro t ht
          rcases List.mem_cons.1 ht with rfl | ht
          · exact ⟨n, hinv⟩
          · exact htested t ht

end WhileBreak

end Cheesecloth.CodeLib
