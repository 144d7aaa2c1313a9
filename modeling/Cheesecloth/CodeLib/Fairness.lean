import Mathlib.Order.Nat
import Mathlib.Tactic.Push
import Cheesecloth.CodeLib.Lts

/-!
# Fair runs of a transition system

* `System.RunFrom M C s` is an infinite run from `s` whose steps all meet `C`.
* The actions belong to threads, and a state says which threads are ready.
  `RunFrom.Fair` is weak fairness: a thread that stays ready takes a step.
* `RunFrom.Fair.leadsTo` is the rank rule.  It is some thread's turn, which is ready;
  the other threads leave that as it is, and a step of the thread whose turn it is
  lowers the rank, until the aim is reached (`Ranked`).
* `exists_fair_run`: a given run that ends where nobody is ready is a fair run, with a
  step that changes nothing repeated at its end.
-/

namespace Cheesecloth.CodeLib.System

variable {σ α τ : Type*}

/-- An infinite run from `s` whose steps all meet `C`. -/
structure RunFrom (M : System σ α) (C : σ → α → Prop) (s : σ) where
  state : Nat → σ
  action : Nat → α
  start : state 0 = s
  allowed : ∀ n, C (state n) (action n)
  step : ∀ n, M.step (state n) (action n) = some (state (n + 1))

namespace RunFrom

variable {M : System σ α} {C : σ → α → Prop} {s : σ}

/-- A thread that is ready from some time on takes a step at some later time. -/
def Fair (r : M.RunFrom C s) (thread : α → Option τ) (Ready : σ → τ → Prop) : Prop :=
  ∀ t n, (∀ m, n ≤ m → Ready (r.state m) t) → ∃ m, n ≤ m ∧ thread (r.action m) = some t

theorem reachableVia (r : M.RunFrom C s) (hs : M.ReachableVia C s) (n : Nat) :
    M.ReachableVia C (r.state n) := by
  induction n with
  | zero => rwa [r.start]
  | succ n ih => exact ih.tail (r.allowed n) (r.step n)

end RunFrom

/-! ## The rank rule -/

/-- From `P`, the thread whose turn it is lowers the rank until `Q` is reached. -/
structure Ranked (M : System σ α) (C : σ → α → Prop) (thread : α → Option τ)
    (Ready : σ → τ → Prop) (P Q : σ → Prop) (rank : σ → Nat) (turn : σ → τ) : Prop where
  ready : ∀ {s}, M.ReachableVia C s → P s → Ready s (turn s)
  other : ∀ {s a s'}, M.ReachableVia C s → P s → C s a → M.step s a = some s' →
    thread a ≠ some (turn s) → P s' ∧ turn s' = turn s ∧ rank s' = rank s
  own : ∀ {s a s'}, M.ReachableVia C s → P s → C s a → M.step s a = some s' →
    thread a = some (turn s) → Q s' ∨ P s' ∧ rank s' < rank s

namespace RunFrom

variable {M : System σ α} {C : σ → α → Prop} {s : σ} {r : M.RunFrom C s}
  {thread : α → Option τ} {Ready : σ → τ → Prop} {P Q : σ → Prop} {rank : σ → Nat}
  {turn : σ → τ}

/-- While others move it stays the turn of the same thread. -/
theorem turn_stays (h : Ranked M C thread Ready P Q rank turn) (hs : M.ReachableVia C s)
    {n m : Nat} (hnm : n ≤ m) (hP : P (r.state n))
    (hother : ∀ i, n ≤ i → i < m → thread (r.action i) ≠ some (turn (r.state n))) :
    P (r.state m) ∧ turn (r.state m) = turn (r.state n) ∧
      rank (r.state m) = rank (r.state n) := by
  induction m, hnm using Nat.le_induction with
  | base => exact ⟨hP, rfl, rfl⟩
  | succ m hnm ih =>
    obtain ⟨hPm, hturn, hrank⟩ := ih fun i hni him => hother i hni (Nat.lt_succ_of_lt him)
    have hne := hother m hnm (Nat.lt_succ_self m)
    rw [← hturn] at hne
    obtain ⟨hP', hturn', hrank'⟩ := h.other (r.reachableVia hs m) hPm (r.allowed m) (r.step m) hne
    exact ⟨hP', hturn'.trans hturn, hrank'.trans hrank⟩

/-- The thread whose turn it is takes a step, and until then nothing changes. -/
theorem Fair.takes_turn (hfair : r.Fair thread Ready) (h : Ranked M C thread Ready P Q rank turn)
    (hs : M.ReachableVia C s) {n : Nat} (hP : P (r.state n)) :
    ∃ m, n ≤ m ∧ P (r.state m) ∧ rank (r.state m) = rank (r.state n) ∧
      thread (r.action m) = some (turn (r.state m)) := by
  classical
  have hmoves : ∃ m, n ≤ m ∧ thread (r.action m) = some (turn (r.state n)) := by
    by_contra hnever
    push Not at hnever
    obtain ⟨m, hnm, hm⟩ := hfair (turn (r.state n)) n fun m hnm => by
      obtain ⟨hPm, hturn, -⟩ := turn_stays h hs hnm hP fun i hni _ => hnever i hni
      exact hturn ▸ h.ready (r.reachableVia hs m) hPm
    exact hnever m hnm hm
  -- the first such step
  obtain ⟨hnm, hm⟩ := Nat.find_spec hmoves
  obtain ⟨hPm, hturn, hrank⟩ := turn_stays h hs hnm hP
    fun i hni him hi => Nat.find_min hmoves him ⟨hni, hi⟩
  exact ⟨_, hnm, hPm, hrank, hm.trans (congrArg some hturn.symm)⟩

/-- In a fair run `P` leads to `Q`. -/
theorem Fair.leadsTo (hfair : r.Fair thread Ready) (h : Ranked M C thread Ready P Q rank turn)
    (hs : M.ReachableVia C s) {n : Nat} (hP : P (r.state n)) : ∃ m, n ≤ m ∧ Q (r.state m) := by
  induction hk : rank (r.state n) using Nat.strong_induction_on generalizing n with
  | _ k ih =>
    obtain ⟨m, hnm, hPm, hrank, hm⟩ := hfair.takes_turn h hs hP
    rcases h.own (r.reachableVia hs m) hPm (r.allowed m) (r.step m) hm with hQ | ⟨hP', hlt⟩
    · exact ⟨m + 1, by omega, hQ⟩
    · obtain ⟨l, hml, hQ⟩ := ih _ (by omega) hP' rfl
      exact ⟨l, by omega, hQ⟩

end RunFrom

/-! ## Given runs -/

namespace RunFrom

variable {M : System σ α} {C : σ → α → Prop} {s : σ}

/-- A step that changes nothing, for ever. -/
def stutter {a : α} (hC : C s a) (hstep : M.step s a = some s) : M.RunFrom C s where
  state _ := s
  action _ := a
  start := rfl
  allowed _ := hC
  step _ := hstep

/-- A step, and then a run. -/
def cons {a : α} {t : σ} (hC : C s a) (hstep : M.step s a = some t) (r : M.RunFrom C t) :
    M.RunFrom C s where
  state
    | 0 => s
    | n + 1 => r.state n
  action
    | 0 => a
    | n + 1 => r.action n
  start := rfl
  allowed
    | 0 => hC
    | n + 1 => r.allowed n
  step
    | 0 => hstep.trans (congrArg some r.start.symm)
    | n + 1 => r.step n

end RunFrom

variable {M : System σ α}

theorem exists_run {C : σ → α → Bool} {as : List α} (idle : α) {s s' : σ}
    (hexec : M.execVia C as s = some s') (hC : C s' idle = true)
    (hstep : M.step s' idle = some s') :
    ∃ r : M.RunFrom (fun s a => C s a) s, ∀ n, M.execVia C (as.take n) s = some (r.state n) := by
  induction as generalizing s with
  | nil =>
    cases hexec
    exact ⟨.stutter hC hstep, fun n => by rw [List.take_nil]; rfl⟩
  | cons a as ih =>
    rw [execVia] at hexec
    split at hexec
    next ha =>
      obtain ⟨t, ht, hexec⟩ := Option.bind_eq_some_iff.1 hexec
      obtain ⟨r, hr⟩ := ih hexec
      refine ⟨.cons ha ht r, fun n => ?_⟩
      cases n with
      | zero => rfl
      | succ n =>
        rw [List.take_succ_cons, execVia, if_pos ha, ht]
        exact hr n
    next => cases hexec

/-- A given run that ends where nobody is ready is a fair run. -/
theorem exists_fair_run {C : σ → α → Bool} {as : List α} (idle : α) {s s' : σ}
    (thread : α → Option τ) (Ready : σ → τ → Prop) (hexec : M.execVia C as s = some s')
    (hC : C s' idle = true) (hstep : M.step s' idle = some s') (hnobody : ∀ t, ¬ Ready s' t) :
    ∃ r : M.RunFrom (fun s a => C s a) s, r.Fair thread Ready ∧
      ∀ n, M.execVia C (as.take n) s = some (r.state n) := by
  obtain ⟨r, hr⟩ := exists_run idle hexec hC hstep
  refine ⟨r, fun t n hready => ?_, hr⟩
  have hend := hr (max n as.length)
  rw [List.take_of_length_le (Nat.le_max_right ..), hexec, Option.some_inj] at hend
  exact absurd (hend ▸ hready _ (Nat.le_max_left ..)) (hnobody t)

end Cheesecloth.CodeLib.System
