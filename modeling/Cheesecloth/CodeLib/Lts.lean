import Mathlib.Logic.Relation
import Mathlib.Tactic.TypeStar

/-!
# Transition systems

A system is an initial state and a partial step function over actions.  An
action carries what the environment chooses, so the step function is
deterministic, and `none` says that the action cannot happen in that state.

* `System.ReachableVia C s`: a run whose steps all meet `C` reaches `s`.  The
  condition sees the state before the step and the action.
* `ReachableVia.invariant` is the induction over such runs.
* `Simulation` is a forward simulation of one system by another, where a step
  may be matched by any number of steps.  Every state reached is then related
  to a state that the other system reaches (`Simulation.reachable`).
* `System.execVia` runs a list of actions, so that a given run can be
  evaluated.
-/

namespace Cheesecloth.CodeLib

/-- A transition system with actions in `α`. -/
structure System (σ α : Type*) where
  init : σ
  step : σ → α → Option σ

namespace System

variable {σ α τ β : Type*}

/-- One step under an action that meets `C`. -/
def StepVia (M : System σ α) (C : σ → α → Prop) (s s' : σ) : Prop :=
  ∃ a, C s a ∧ M.step s a = some s'

/-- A run whose steps all meet `C` reaches `s`. -/
def ReachableVia (M : System σ α) (C : σ → α → Prop) (s : σ) : Prop :=
  Relation.ReflTransGen (M.StepVia C) M.init s

/-- Some run reaches `s`. -/
def Reachable (M : System σ α) (s : σ) : Prop := M.ReachableVia (fun _ _ => True) s

variable {M : System σ α} {N : System τ β} {C : σ → α → Prop}

theorem ReachableVia.tail {s s' : σ} {a : α} (hs : M.ReachableVia C s) (hC : C s a)
    (hstep : M.step s a = some s') : M.ReachableVia C s' :=
  Relation.ReflTransGen.tail hs ⟨a, hC, hstep⟩

/-- A run that meets a condition is a run. -/
theorem ReachableVia.reachable {s : σ} (hs : M.ReachableVia C s) : M.Reachable s :=
  Relation.ReflTransGen.mono (fun _ _ ⟨a, _, hstep⟩ => ⟨a, trivial, hstep⟩) _ _ hs

/-- What holds initially and survives every step that meets `C` holds in every
state that is reached by such steps. -/
theorem ReachableVia.invariant {I : σ → Prop} (hinit : I M.init)
    (hpres : ∀ {s a s'}, M.ReachableVia C s → C s a → M.step s a = some s' → I s → I s')
    {s : σ} (hs : M.ReachableVia C s) : I s := by
  induction hs with
  | refl => exact hinit
  | tail hs hstep ih =>
    obtain ⟨a, hC, hstep⟩ := hstep
    exact hpres hs hC hstep ih

/-- `N` matches every step of `M` that meets `C`. -/
structure Simulation (M : System σ α) (N : System τ β) (C : σ → α → Prop) (R : σ → τ → Prop) :
    Prop where
  init : R M.init N.init
  step : ∀ {s a s' t}, M.ReachableVia C s → C s a → M.step s a = some s' → R s t →
    ∃ t', Relation.ReflTransGen (N.StepVia fun _ _ => True) t t' ∧ R s' t'

theorem Simulation.reachable {R : σ → τ → Prop} (hsim : Simulation M N C R) {s : σ}
    (hs : M.ReachableVia C s) : ∃ t, N.Reachable t ∧ R s t := by
  induction hs with
  | refl => exact ⟨N.init, Relation.ReflTransGen.refl, hsim.init⟩
  | tail hs hstep ih =>
    obtain ⟨a, hC, hstep⟩ := hstep
    obtain ⟨t, ht, hR⟩ := ih
    obtain ⟨t', htt', hR'⟩ := hsim.step hs hC hstep hR
    exact ⟨t', Relation.ReflTransGen.trans ht htt', hR'⟩

/-! ## Given runs -/

/-- Runs a list of actions, as long as each of them meets `C`. -/
def execVia (M : System σ α) (C : σ → α → Bool) : List α → σ → Option σ
  | [], s => some s
  | a :: as, s => if C s a then (M.step s a).bind (M.execVia C as) else none

theorem steps_of_execVia {C : σ → α → Bool} {as : List α} {s s' : σ}
    (hexec : M.execVia C as s = some s') :
    Relation.ReflTransGen (M.StepVia fun s a => C s a) s s' := by
  induction as generalizing s with
  | nil =>
    cases hexec
    exact .refl
  | cons a as ih =>
    rw [execVia] at hexec
    split at hexec
    next hC =>
      obtain ⟨t, ht, hexec⟩ := Option.bind_eq_some_iff.1 hexec
      exact (ih hexec).head ⟨a, hC, ht⟩
    next => cases hexec

/-- The state that a given run ends in is reachable. -/
theorem reachableVia_exec {C : σ → α → Bool} {as : List α} {s : σ}
    (hexec : M.execVia C as M.init = some s) : M.ReachableVia (fun s a => C s a) s :=
  steps_of_execVia hexec

end System

end Cheesecloth.CodeLib
