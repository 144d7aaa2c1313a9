import Cheesecloth.CodeLib.Fairness
import Cheesecloth.Proxy.Orderly

/-!
# The clean-up loop ends

The clean-up loop runs `killp` on the sockets of a connection and joins the two
threads.  A worker waits for its peer in `recv` and in `send`, so the `join` ends
only if somebody shuts the worker's sockets down.  When the first `shutdown` of `killp`
raises although the socket is open, as it does after the peer has reset the connection,
nobody does: the other worker stays in its `recv`, and the loop in its `join`
(`cleanup_hangs`).

* `ready` says which threads wait for nobody outside the relay.  `recv` and `send`
  wait until the socket is shut down; then they return.  A thread that is ready can
  take a step that meets `cleansUp` (`ready_moves`).
* `Drains`: a worker whose sockets are shut down makes a bounded number of steps more.
* `cleanup_ends`: in every run under `cleansUp` that is fair to the threads that are
  ready, the clean-up loop ends, and both threads of every recorded connection have
  returned then.
-/

namespace Cheesecloth.Proxy

open CodeLib

/-! ## Threads that wait for nobody -/

/-- The thread that takes the step. -/
def Action.thread : Action → Option Thread
  | .worker t _ => some (.worker t)
  | .main _ => some .main
  | .sigint | .sigterm => none

/-- The thread waits for nobody outside the relay, and for no other thread. -/
def ready (s : State) : Thread → Bool
  | .worker t => decide (t < s.threads) &&
    match (s.thread t).pc with
    | .receiving => (s.sock (s.thread t).client).shut
    | .sending _ => (s.sock (s.thread t).server).shut
    | .returned => false
    | _ => true
  | .main =>
    match s.main with
    | .accept | .connect _ _ | .returned | .crashed => false
    | .joinT1 e _ => (s.thread e.t1).pc == .returned
    | .joinT2 e _ => (s.thread e.t2).pc == .returned
    | _ => true

/-- A call can be made, and need not raise unless its socket is closed. -/
theorem Call.exists_run (s : State) (c : Call) :
    ∃ raises, (raises = true → (s.sock c.target).closed = true) ∧ (c.run s raises).isSome := by
  cases c with
  | shutdown i =>
    cases hclosed : (s.sock i).closed with
    | true => exact ⟨true, fun _ => hclosed, rfl⟩
    | false => exact ⟨false, by simp, by simp [Call.run, hclosed]⟩
  | close i => exact ⟨false, by simp, by simp [Call.run]⟩

theorem worker_moves {s : State} (hs : Orderly s) {t : Nat} (h : ready s (.worker t) = true) :
    ∃ o s', cleansUp s (.worker t o) = true ∧ proxy.step s (.worker t o) = some s' := by
  simp only [ready, Bool.and_eq_true, decide_eq_true_eq] at h
  obtain ⟨ht, h⟩ := h
  have hmoves : ∃ o, cleansUp s (.worker t o) = true ∧ (workerStep s t o).isSome := by
    cases hpc : (s.thread t).pc with
    | loop | recv | read | write | send => exact ⟨.ok, rfl, by simp [workerStep, hpc]⟩
    | receiving => exact ⟨.eof, rfl, by simp [workerStep, hpc]⟩
    | sending => exact ⟨.raises, by simp [cleansUp, hpc], by simp [workerStep, hpc]⟩
    | returned => simp [hpc] at h
    | killp calls =>
      have hkilling : Killing s _ _ calls (.worker t) := ⟨ht, hpc, rfl, rfl⟩
      cases calls with
      | nil => exact absurd rfl (hs.underway hkilling).ne_nil
      | cons c calls =>
        obtain ⟨raises, hraises, hrun⟩ := c.exists_run s
        cases raises with
        | false => exact ⟨.ok, rfl, by simpa [workerStep, hpc] using hrun⟩
        | true => exact ⟨.raises, by simpa [cleansUp, hpc] using hraises rfl,
            by simpa [workerStep, hpc] using hrun⟩
  obtain ⟨o, hC, ho⟩ := hmoves
  obtain ⟨s', hs'⟩ := Option.isSome_iff_exists.1 ho
  exact ⟨o, s', hC, by simpa [proxy, step, ht] using hs'⟩

theorem main_moves {s : State} (hs : Orderly s) (h : ready s .main = true) :
    ∃ o s', cleansUp s (.main o) = true ∧ proxy.step s (.main o) = some s' := by
  have hmoves : ∃ o, cleansUp s (.main o) = true ∧ (mainStep s o).isSome := by
    cases hmain : s.main with
    | setup | socket | startT2 | startT1 | append | handler =>
      exact ⟨.ok, rfl, by simp [mainStep, hmain]⟩
    | joinT1 | joinT2 => exact ⟨.ok, rfl, by simpa [ready, mainStep, hmain] using h⟩
    | accept | connect | returned | crashed => simp [ready, hmain] at h
    | killp calls e rest =>
      have hkilling : Killing s _ _ calls .main := ⟨e, rest, hmain, rfl, rfl⟩
      cases calls with
      | nil => exact absurd rfl (hs.underway hkilling).ne_nil
      | cons c calls =>
        obtain ⟨raises, hraises, hrun⟩ := c.exists_run s
        cases raises with
        | false => exact ⟨.ok, rfl, by simpa [mainStep, hmain] using hrun⟩
        | true => exact ⟨.raises, by simpa [cleansUp, hmain] using hraises rfl,
            by simpa [mainStep, hmain] using hrun⟩
  obtain ⟨o, hC, ho⟩ := hmoves
  obtain ⟨s', hs'⟩ := Option.isSome_iff_exists.1 ho
  exact ⟨o, s', hC, hs'⟩

/-- A thread that is ready can take a step under the condition, so that fairness does
not ask for what cannot be. -/
theorem ready_moves {s : State} (hs : proxy.ReachableVia (fun s a => cleansUp s a) s)
    {θ : Thread} (h : ready s θ = true) :
    ∃ a s', a.thread = some θ ∧ cleansUp s a = true ∧ proxy.step s a = some s' := by
  cases θ with
  | worker t =>
    obtain ⟨o, s', hC, hstep⟩ := worker_moves (reachableVia_orderly hs) h
    exact ⟨_, s', rfl, hC, hstep⟩
  | main =>
    obtain ⟨o, s', hC, hstep⟩ := main_moves (reachableVia_orderly hs) h
    exact ⟨_, s', rfl, hC, hstep⟩

/-! ## The workers drain -/

/-- The worker is in its `killp`, or both its sockets are shut down. -/
def Drains (s : State) (t : Nat) : Prop :=
  (∃ calls, (s.thread t).pc = .killp calls) ∨
    (s.sock (s.thread t).client).shut = true ∧ (s.sock (s.thread t).server).shut = true

/-- A bound on the steps that a draining worker has left.  A chunk that it still
receives does not get past `send`. -/
def Pc.stepsLeft : Pc → Nat
  | .sending _ => 12
  | .loop => 11
  | .recv => 10
  | .receiving => 9
  | .read _ => 8
  | .write _ _ => 7
  | .send _ => 6
  | .killp calls => calls.length + 1
  | .returned => 0

theorem Drains.isReady {s : State} {t : Nat} (h : Drains s t) (ht : t < s.threads)
    (hreturned : (s.thread t).pc ≠ .returned) : ready s (.worker t) = true := by
  rw [ready, decide_eq_true ht, Bool.true_and]
  rcases h with ⟨calls, h⟩ | ⟨hclient, hserver⟩
  · rw [h]
  · split
    next => exact hclient
    next => exact hserver
    next hpc => exact absurd hpc hreturned
    next => rfl

theorem Silent.stepsLeft_lt {s : State} {w : Worker} {pc pc' : Pc} {o : Outcome}
    (h : Silent s w pc o pc') (hserver : (s.sock w.server).shut = true) :
    pc'.stepsLeft < pc.stepsLeft := by
  cases h with
  | send b h => simp [hserver] at h
  | _ => simp [Pc.stepsLeft, killp]

theorem Drains.stepsLeft_lt {s s' : State} {t : Nat} {o : Outcome} (h : Drains s t)
    (heffect : Effect s (.worker t o) s') :
    (s'.thread t).pc.stepsLeft < (s.thread t).pc.stepsLeft := by
  cases heffect with
  | silent _ hpc hmove =>
    have hserver : (s.sock (s.thread t).server).shut = true := by
      rcases h with ⟨calls, h⟩ | h
      · exact absurd (hpc.symm.trans h) (hmove.not_killp calls)
      · exact h.2
    simpa [hpc] using hmove.stepsLeft_lt hserver
  | receive _ hpc => simp [hpc, Pc.stepsLeft]
  | write _ hpc => simp [hpc, Pc.stepsLeft]
  | sent _ hpc => simp [hpc, Pc.stepsLeft]
  | @call _ c calls s₁ raises _ hpc hrun =>
    obtain ⟨x, rfl, -⟩ := Call.run_eq hrun
    cases raises with
    | true => simp [hpc, Pc.stepsLeft]
    | false => cases calls <;> simp [hpc, killpPc, Pc.stepsLeft]
  | idle ha => cases ha

/-- The thread that the main thread joins. -/
def MainPc.joins : MainPc → Option Nat
  | .joinT1 e _ => some e.t1
  | .joinT2 e _ => some e.t2
  | _ => none

theorem MainPc.joins_cases {pc : MainPc} {t : Nat} (h : pc.joins = some t) :
    ∃ e rest, pc = .joinT1 e rest ∧ t = e.t1 ∨ pc = .joinT2 e rest ∧ t = e.t2 := by
  cases pc with
  | joinT1 e rest => exact ⟨e, rest, .inl ⟨rfl, (Option.some_inj.1 h).symm⟩⟩
  | joinT2 e rest => exact ⟨e, rest, .inr ⟨rfl, (Option.some_inj.1 h).symm⟩⟩
  | _ => cases h

/-- The thread that is about to shut down the second socket of a connection that is
being joined is `t1`. -/
theorem Orderly.shut_or_killing {s : State} (hreach : proxy.Reachable s) (hs : Orderly s)
    {e : Entry} (he : s.main.AtJoin e) :
    (s.sock e.v).shut = true ∨ ∃ calls, (s.thread e.t1).pc = .killp calls := by
  have hstarted := joins_started hreach he
  refine (hs.joined e he).2.imp_right fun ⟨θ, hθ⟩ => ?_
  cases θ with
  | worker u =>
    obtain ⟨hu, hpc, hclient, -⟩ := hθ
    have heq := (reachable_wired hreach).client_inj u hu e.t1 hstarted.t1_lt
      (hclient.trans hstarted.t1_client.symm)
    exact ⟨_, heq ▸ hpc⟩
  | main =>
    obtain ⟨e', rest, hmain, -⟩ := hθ
    rw [hmain] at he
    exact absurd he id

/-- The thread that the main thread joins drains. -/
theorem Orderly.drains {s : State} (hreach : proxy.Reachable s) (hs : Orderly s) {t : Nat}
    (ht : s.main.joins = some t) : t < s.threads ∧ Drains s t := by
  obtain ⟨e, rest, ⟨hmain, rfl⟩ | ⟨hmain, rfl⟩⟩ := MainPc.joins_cases ht
  · have he : s.main.AtJoin e := hmain ▸ rfl
    have hstarted := joins_started hreach he
    refine ⟨hstarted.t1_lt, ?_⟩
    rcases hs.shut_or_killing hreach he with hv | hcalls
    · exact .inr ⟨hstarted.t1_client ▸ (hs.joined e he).1, hstarted.t1_server ▸ hv⟩
    · exact .inl hcalls
  · have he : s.main.AtJoin e := hmain ▸ rfl
    have hstarted := joins_started hreach he
    have hjoining := reachable_joining hreach
    rw [hmain] at hjoining
    -- `t1` has returned, so it is not about to do anything
    have hv := (hs.shut_or_killing hreach he).resolve_right (by simp [hjoining.2])
    exact ⟨hstarted.t2_lt,
      .inr ⟨hstarted.t2_client ▸ hv, hstarted.t2_server ▸ (hs.joined e he).1⟩⟩

/-! ## The clean-up loop ends -/

/-- The steps of the main thread that are left, and those of the threads that it has
not begun to join.  A thread takes at most 12 steps and its `join` one, so a connection
costs 4 calls and twice 13. -/
def MainPc.cost : MainPc → Nat
  | .killp calls _ rest => calls.length + 26 + 30 * rest.length
  | .joinT1 _ rest => 14 + 30 * rest.length
  | .joinT2 _ rest => 1 + 30 * rest.length
  | _ => 0

def cleanUpLeft (s : State) : Nat :=
  s.main.cost + s.main.joins.elim 0 fun t => (s.thread t).pc.stepsLeft

/-- The thread that the clean-up loop waits for: itself, or the thread it joins. -/
def turn (s : State) : Thread :=
  match s.main.joins with
  | some t => if (s.thread t).pc = .returned then .main else .worker t
  | none => .main

theorem stepsLeft_le {s : State} (hs : proxy.Reachable s) {t : Nat} (ht : t < s.threads) :
    (s.thread t).pc.stepsLeft ≤ 12 := by
  cases hpc : (s.thread t).pc with
  | killp calls =>
    have hlength := (reachable_callsLeft hs t ht calls hpc).length_le
    simp only [killp, List.length_cons, List.length_nil] at hlength
    simp only [Pc.stepsLeft]
    omega
  | _ => simp [Pc.stepsLeft]

theorem cost_cleanupPc (es : List Entry) : (cleanupPc es).cost = 30 * es.length := by
  cases es with
  | nil => rfl
  | cons e es =>
    simp only [cleanupPc, MainPc.cost, killp, List.length_cons, List.length_nil]
    omega

theorem joins_cleanupPc (es : List Entry) : (cleanupPc es).joins = none := by
  cases es <;> rfl

theorem not_cleaningUp_of_serving {pc : MainPc} (h : pc.Serving) : ¬ pc.cleaningUp = true := by
  cases pc <;> first | exact absurd h id | simp [MainPc.cleaningUp]

theorem Orderly.not_cleaningUp {s : State} (hs : Orderly s) {line : Line} {pc : MainPc}
    (hmain : s.main = .handler line pc) : ¬ s.main.cleaningUp = true := by
  rw [hmain]
  simp [MainPc.cleaningUp, hs.outside line pc hmain]

theorem turn_congr {s s' : State} (hmain : s'.main = s.main)
    (hpc : ∀ t, s.main.joins = some t → (s'.thread t).pc = (s.thread t).pc) :
    turn s' = turn s ∧ cleanUpLeft s' = cleanUpLeft s := by
  unfold turn cleanUpLeft
  rw [hmain]
  cases hjoins : s.main.joins with
  | none => exact ⟨rfl, rfl⟩
  | some t => simp [hpc t hjoins]

theorem Effect.worker_pc {s s' : State} {u : Nat} {o : Outcome} (h : Effect s (.worker u o) s')
    {t : Nat} (ht : t ≠ u) : (s'.thread t).pc = (s.thread t).pc := by
  cases h with
  | silent | receive | write | sent => simp [ht]
  | call raises _ _ hrun =>
    obtain ⟨x, rfl, -⟩ := Call.run_eq hrun
    simp [ht]
  | idle ha => cases ha

section Rank

variable {s s' : State} (hs : proxy.ReachableVia (fun s a => cleansUp s a) s)
  (hcleaning : s.main.cleaningUp = true)

include hs hcleaning

theorem ready_turn : ready s (turn s) = true := by
  have horderly := reachableVia_orderly hs
  unfold turn
  split
  next t hjoins =>
    split_ifs with hreturned
    · obtain ⟨e, rest, ⟨hmain, rfl⟩ | ⟨hmain, rfl⟩⟩ := MainPc.joins_cases hjoins
      · simpa [ready, hmain] using hreturned
      · simpa [ready, hmain] using hreturned
    · obtain ⟨ht, hdrains⟩ := horderly.drains hs.reachable hjoins
      exact hdrains.isReady ht hreturned
  next hjoins =>
    cases hmain : s.main with
    | killp => simp [ready, hmain]
    | handler => exact absurd hcleaning (horderly.not_cleaningUp hmain)
    | joinT1 | joinT2 => simp [hmain, MainPc.joins] at hjoins
    | _ => simp [hmain, MainPc.cleaningUp] at hcleaning

theorem other_turn {a : Action} (hC : cleansUp s a = true) (hstep : proxy.step s a = some s')
    (hother : a.thread ≠ some (turn s)) :
    s'.main.cleaningUp = true ∧ turn s' = turn s ∧ cleanUpLeft s' = cleanUpLeft s := by
  cases a with
  | worker u o =>
    have heffect := step_effect hstep
    have hmain := heffect.worker_control.2
    refine ⟨hmain ▸ hcleaning, turn_congr hmain fun t hjoins => ?_⟩
    by_cases ht : t = u
    · -- a worker that the loop joins, and whose turn it is not, has returned
      have hreturned : (s.thread t).pc = .returned := by
        by_contra hne
        exact hother (by simp [turn, hjoins, hne, Action.thread, ← ht])
      have hlt := ((reachableVia_orderly hs).drains hs.reachable hjoins).1
      rw [hreturned, (heffect.kept hlt).returned hreturned]
    · exact heffect.worker_pc ht
  | main o =>
    have hturn : turn s ≠ .main := fun h => hother (by rw [h]; rfl)
    unfold turn at hturn
    split at hturn
    next t hjoins =>
      have hreturned : (s.thread t).pc ≠ .returned := fun h => hturn (if_pos h)
      change mainStep s o = some s' at hstep
      obtain ⟨e, rest, ⟨hmain, rfl⟩ | ⟨hmain, rfl⟩⟩ := MainPc.joins_cases hjoins
      all_goals cases o <;> simp [mainStep, hmain, hreturned] at hstep
    next => exact absurd rfl hturn
  | sigint => simp [cleansUp, hcleaning] at hC
  | sigterm =>
    cases hstep
    exact ⟨hcleaning, rfl, rfl⟩

/-- A step of the main thread in the clean-up loop. -/
theorem main_turn {o : Outcome} (hC : cleansUp s (.main o) = true)
    (hstep : proxy.step s (.main o) = some s') :
    s'.main = .returned ∨ s'.main.cleaningUp = true ∧ cleanUpLeft s' < cleanUpLeft s := by
  have hreach := hs.reachable
  have hbound : ∀ t < s.threads, (s'.thread t).pc.stepsLeft ≤ 12 := fun t ht =>
    stepsLeft_le (hs.tail hC hstep).reachable ((step_effect hstep).kept ht).lt
  have hjoining := reachable_joining hreach
  have hstarted := (reachable_recorded hreach).workers
  have hcontrol := step_control hreach hstep
  unfold cleanUpLeft
  generalize s'.workers = ws at hcontrol
  generalize s'.main = pc at hcontrol ⊢
  cases hcontrol with
  | stay ha => exact absurd rfl (ha o)
  | kill hmain => exact .inr ⟨rfl, by simp [hmain, MainPc.cost, MainPc.joins]⟩
  | @killed _ c calls e rest hmain =>
    rw [hmain] at hjoining
    have hle := hbound e.t1 (hstarted e (Joined.mem hjoining)).t1_lt
    refine .inr ⟨rfl, ?_⟩
    simp only [hmain, MainPc.cost, MainPc.joins, Option.elim_some, Option.elim_none,
      List.length_cons]
    omega
  | @joinT1 e rest hmain _ =>
    rw [hmain] at hjoining
    have hle := hbound e.t2 (hstarted e (Joined.mem hjoining)).t2_lt
    refine .inr ⟨rfl, ?_⟩
    simp only [hmain, MainPc.cost, MainPc.joins, Option.elim_some]
    omega
  | @joinT2 e rest hmain _ =>
    cases rest with
    | nil => exact .inl rfl
    | cons e' rest =>
      refine .inr ⟨rfl, ?_⟩
      rw [cost_cleanupPc, joins_cleanupPc, hmain]
      simp only [MainPc.cost, Option.elim_none]
      omega
  | advance hserving => exact absurd hcleaning (not_cleaningUp_of_serving hserving)
  | leave hserving => exact absurd hcleaning (not_cleaningUp_of_serving hserving)
  | print hmain => exact absurd hcleaning ((reachableVia_orderly hs).not_cleaningUp hmain)
  | unwind hmain => exact absurd hcleaning ((reachableVia_orderly hs).not_cleaningUp hmain)
  | enter hmain => simp [hmain, MainPc.cleaningUp] at hcleaning
  | start hmain => simp [hmain, MainPc.cleaningUp] at hcleaning
  | record hmain => simp [hmain, MainPc.cleaningUp] at hcleaning
  | crash hmain => simp [hmain, MainPc.cleaningUp] at hcleaning

theorem own_turn {a : Action} (hC : cleansUp s a = true) (hstep : proxy.step s a = some s')
    (hown : a.thread = some (turn s)) :
    s'.main = .returned ∨ s'.main.cleaningUp = true ∧ cleanUpLeft s' < cleanUpLeft s := by
  have hreach := hs.reachable
  have horderly := reachableVia_orderly hs
  cases a with
  | worker u o =>
    have heffect := step_effect hstep
    have hmain := heffect.worker_control.2
    have hjoins : s.main.joins = some u := by
      unfold turn at hown
      split at hown
      next t hjoins =>
        split_ifs at hown
        · cases hown
        · cases hown
          exact hjoins
      next => cases hown
    have hlt := (horderly.drains hreach hjoins).2.stepsLeft_lt heffect
    refine .inr ⟨hmain ▸ hcleaning, ?_⟩
    simp only [cleanUpLeft, hmain, hjoins, Option.elim_some]
    omega
  | main o => exact main_turn hs hcleaning hC hstep
  | sigint => cases hown
  | sigterm => cases hown

end Rank

theorem cleanup_ranked :
    System.Ranked proxy (fun s a => cleansUp s a) Action.thread (fun s θ => ready s θ)
      (fun s => s.main.cleaningUp) (fun s => s.main = .returned) cleanUpLeft turn where
  ready hs hcleaning := ready_turn hs hcleaning
  other hs hcleaning hC hstep hother := other_turn hs hcleaning hC hstep hother
  own hs hcleaning hC hstep hown := own_turn hs hcleaning hC hstep hown

/-- In every fair run under the condition the clean-up loop ends, and both threads of
every recorded connection have returned then. -/
theorem cleanup_ends (r : proxy.RunFrom (fun s a => cleansUp s a) proxy.init)
    (hfair : r.Fair Action.thread fun s θ => ready s θ) {n : Nat}
    (hn : (r.state n).main.cleaningUp = true) :
    ∃ m, n ≤ m ∧ (r.state m).main = .returned ∧
      ∀ e ∈ (r.state m).workers, e.Ended (r.state m) := by
  obtain ⟨m, hnm, hmain⟩ := hfair.leadsTo cleanup_ranked .refl hn
  exact ⟨m, hnm, hmain, fun e he =>
    ended_of_returned (r.reachableVia .refl m).reachable hmain he⟩

/-! ## Two runs -/

/-- No thread is ready. -/
def nobodyReady (s : State) : Bool :=
  !ready s .main && decide (∀ t < s.threads, ready s (.worker t) = false)

theorem not_ready {s : State} (h : nobodyReady s = true) (θ : Thread) : ¬ ready s θ = true := by
  simp only [nobodyReady, Bool.and_eq_true, Bool.not_eq_true', decide_eq_true_eq] at h
  cases θ with
  | main => simp [h.1]
  | worker t =>
    rcases Nat.lt_or_ge t s.threads with ht | ht
    · simp [h.2 t ht]
    · simp [ready, Nat.not_lt.2 ht]

/-- A keyboard interrupt with one connection open, and then the clean-up. -/
def interruptRun : List Action :=
  connectRun ++ [.sigint] ++ List.replicate 9 (.main .ok) ++ [.ok, .ok, .raises].map (.worker 0) ++
    [.ok, .ok, .raises].map (.worker 1) ++ List.replicate 2 (.main .ok)

theorem cleanup_ends_interrupt :
    ∃ (r : proxy.RunFrom (fun s a => cleansUp s a) proxy.init) (n : Nat),
      (r.Fair Action.thread fun s θ => ready s θ) ∧ (r.state n).main.cleaningUp = true ∧
      (r.state n).workers = [⟨1, 0, 0, 1⟩] ∧
      ∃ m, n ≤ m ∧ (r.state m).main = .returned ∧
        ∀ e ∈ (r.state m).workers, e.Ended (r.state m) := by
  have hend : (proxy.execVia cleansUp interruptRun proxy.init).map nobodyReady = some true := by
    decide +kernel
  have hmiddle : (proxy.execVia cleansUp (interruptRun.take 13) proxy.init).map
      (fun s => (s.main.cleaningUp, s.workers)) = some (true, [⟨1, 0, 0, 1⟩]) := by
    decide +kernel
  obtain ⟨s', hexec, hnobody⟩ := Option.map_eq_some_iff.1 hend
  obtain ⟨r, hfair, hr⟩ := System.exists_fair_run .sigterm Action.thread (fun s θ => ready s θ)
    hexec rfl rfl (not_ready hnobody)
  rw [hr 13] at hmiddle
  obtain ⟨hn, hworkers⟩ := Prod.mk.inj (Option.some_inj.1 hmiddle)
  exact ⟨r, 13, hfair, hn, hworkers, cleanup_ends r hfair hn⟩

/-- The client resets the connection: its worker leaves `recv` by an exception and
returns, for `shutdown` raises.  Then the relay is interrupted, and `shutdown` raises
in the clean-up loop as well. -/
def resetRun : List Action :=
  connectRun ++ [.ok, .ok].map (.worker 0) ++ [.ok, .ok, .raises, .raises].map (.worker 1) ++
    [.sigint] ++ List.replicate 5 (.main .ok) ++ [.main .raises, .main .ok]

/-- Without the condition the clean-up loop can wait for ever, in a fair run: the other
worker waits in `recv` on a socket that nobody shuts down. -/
theorem cleanup_hangs :
    ∃ (r : proxy.RunFrom (fun _ _ => true) proxy.init) (n : Nat),
      (r.Fair Action.thread fun s θ => ready s θ) ∧
      ∀ m, n ≤ m → (r.state m).main = .joinT2 ⟨1, 0, 0, 1⟩ [] := by
  have hend : (proxy.execVia (fun _ _ => true) resetRun proxy.init).map
      (fun s => (nobodyReady s, s.main)) = some (true, .joinT2 ⟨1, 0, 0, 1⟩ []) := by
    decide +kernel
  obtain ⟨s', hexec, hs'⟩ := Option.map_eq_some_iff.1 hend
  obtain ⟨hnobody, hmain⟩ := Prod.mk.inj hs'
  obtain ⟨r, hfair, hr⟩ := System.exists_fair_run .sigterm Action.thread (fun s θ => ready s θ)
    hexec rfl rfl (not_ready hnobody)
  refine ⟨r, resetRun.length, hfair, fun m hm => ?_⟩
  have hstate := hr m
  rw [List.take_of_length_le hm, hexec, Option.some_inj] at hstate
  rw [← hstate, hmain]

end Cheesecloth.Proxy
