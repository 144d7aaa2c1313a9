import Cheesecloth.Proxy.Shutdown

/-!
# The calls of `killp`

Both workers of a connection and the clean-up loop run `killp` on the same two
sockets, in any interleaving.

* `cleansUp` is a condition on these calls: one raises only on a socket that is closed
  already, and no interrupt comes while the clean-up loop runs.
* `Killing` says which thread is in a `killp`, and which calls it has left.
* `CallEffect` lists the steps by what they do to the sockets and to the calls under
  way.  `step_callEffect` says that the list is complete under the condition: `close`
  does not raise, and a `shutdown` that raises finds its socket closed.
-/

namespace Cheesecloth.Proxy

open CodeLib

/-! ## The condition -/

/-- The main thread is in the clean-up loop, or was interrupted there. -/
def MainPc.cleaningUp : MainPc → Bool
  | .killp _ _ _ | .joinT1 _ _ | .joinT2 _ _ => true
  | .handler _ pc => pc.cleaningUp
  | _ => false

/-- A call of a `killp` raises only on a socket that is closed already, and the
clean-up loop is not interrupted. -/
def cleansUp (s : State) : Action → Bool
  | .worker t .raises =>
    match (s.thread t).pc with
    | .killp (c :: _) => (s.sock c.target).closed
    | _ => true
  | .main .raises =>
    match s.main with
    | .killp (c :: _) _ _ => (s.sock c.target).closed
    | _ => true
  | .sigint => !s.main.cleaningUp
  | _ => true

inductive Thread where
  | worker (t : Nat)
  | main
deriving DecidableEq

/-! ## The calls under way -/

/-- The thread is in `killp(a, b)`, with `calls` still to make. -/
def Killing (s : State) (a b : Nat) (calls : List Call) : Thread → Prop
  | .worker t => t < s.threads ∧ (s.thread t).pc = .killp calls ∧
      (s.thread t).client = a ∧ (s.thread t).server = b
  | .main => ∃ e rest, s.main = .killp calls e rest ∧ e.k = a ∧ e.v = b

theorem Killing.unique {s : State} {θ : Thread} {a b a' b' : Nat} {calls calls' : List Call}
    (h : Killing s a b calls θ) (h' : Killing s a' b' calls' θ) :
    a = a' ∧ b = b' ∧ calls = calls' := by
  cases θ with
  | worker t =>
    obtain ⟨-, hpc, rfl, rfl⟩ := h
    obtain ⟨-, hpc', rfl, rfl⟩ := h'
    exact ⟨rfl, rfl, by simpa [hpc] using hpc'⟩
  | main =>
    obtain ⟨e, rest, hmain, rfl, rfl⟩ := h
    obtain ⟨e', rest', hmain', rfl, rfl⟩ := h'
    rw [hmain] at hmain'
    cases hmain'
    exact ⟨rfl, rfl, rfl⟩

/-- The main thread joins a thread of the connection `e`. -/
def MainPc.AtJoin (pc : MainPc) (e : Entry) : Prop :=
  match pc with
  | .joinT1 e' _ | .joinT2 e' _ => e' = e
  | _ => False

/-- The thread goes on to `calls`, or to the end of its `killp`, and the other threads
keep theirs. -/
structure Proceeds (s s' : State) (θ : Thread) (a b : Nat) (calls : List Call) : Prop where
  others : ∀ {φ a' b' calls'}, φ ≠ θ → (Killing s' a' b' calls' φ ↔ Killing s a' b' calls' φ)
  own : ∀ {a' b' calls'}, Killing s' a' b' calls' θ ↔ calls' = calls ∧ calls ≠ [] ∧ a = a' ∧ b = b'
  joins : ∀ {e}, s'.main.AtJoin e → s.main.AtJoin e ∨ θ = .main ∧ calls = [] ∧ e.k = a ∧ e.v = b

/-- The steps by what they do to the sockets and to the calls under way. -/
inductive CallEffect (s s' : State) : Prop
  | other
      (hsock : ∀ i, (s'.sock i).closed = (s.sock i).closed ∧ (s'.sock i).shut = (s.sock i).shut ∨
        (s'.sock i).closed = false ∧ s.socks ≤ i)
      (hkeeps : ∀ {θ a b calls}, Killing s a b calls θ → Killing s' a b calls θ)
      (hnew : ∀ {θ a b calls}, Killing s' a b calls θ → Killing s a b calls θ ∨ calls = killp a b)
      (hjoins : ∀ {e}, s'.main.AtJoin e → s.main.AtJoin e)
  | shutdown {θ a b i calls} (hθ : Killing s a b (.shutdown i :: calls) θ)
      (hsock : s'.sock = Function.update s.sock i (s.sock i).shutdown)
      (hnext : Proceeds s s' θ a b calls)
  | refused {θ a b i calls} (hθ : Killing s a b (.shutdown i :: calls) θ)
      (hclosed : (s.sock i).closed = true) (hsock : s'.sock = s.sock)
      (hnext : Proceeds s s' θ a b [])
  | close {θ a b i calls} (hθ : Killing s a b (.close i :: calls) θ)
      (hsock : s'.sock = Function.update s.sock i (s.sock i).close)
      (hnext : Proceeds s s' θ a b calls)

/-- Under the condition `close` does not raise, and `shutdown` only on a closed
socket. -/
theorem callEffect_of_run {s s₁ s' : State} {θ : Thread} {a b : Nat} {c : Call}
    {calls : List Call} {raises : Bool} (hθ : Killing s a b (c :: calls) θ)
    (hrun : c.run s raises = some s₁) (hraises : raises = true → (s.sock c.target).closed = true)
    (hsock : s'.sock = s₁.sock) (hnext : Proceeds s s' θ a b (if raises then [] else calls)) :
    CallEffect s s' := by
  cases c with
  | shutdown i =>
    simp only [Call.run] at hrun
    split_ifs at hrun with h
    · cases hrun
      rw [if_pos h] at hnext
      exact .refused hθ (hraises h) hsock hnext
    · cases hrun
      rw [if_neg h] at hnext
      exact .shutdown hθ hsock hnext
  | close i =>
    simp only [Call.run] at hrun
    split_ifs at hrun with h
    cases hrun
    cases raises with
    | true => exact absurd (hraises rfl) (by simpa [Call.target] using h)
    | false => exact .close hθ hsock hnext

/-! ## Every step -/

/-- What a step of the worker `t` does to the calls under way. -/
theorem killing_setPc {s s' : State} (hsame : SameHolders s s') (hmain : s'.main = s.main)
    {t : Nat} {pc : Pc} (hpc : ∀ u, (s'.thread u).pc = if u = t then pc else (s.thread u).pc)
    (a b : Nat) (calls : List Call) :
    (∀ φ ≠ Thread.worker t, Killing s' a b calls φ ↔ Killing s a b calls φ) ∧
    (Killing s' a b calls (.worker t) ↔ t < s.threads ∧ pc = .killp calls ∧
      (s.thread t).client = a ∧ (s.thread t).server = b) := by
  constructor
  · intro φ hφ
    cases φ with
    | worker u =>
      have hne : u ≠ t := fun h => hφ (congrArg _ h)
      simp [Killing, hpc, hne, hsame.threads, hsame.client, hsame.server]
    | main => simp [Killing, hmain]
  · simp [Killing, hpc, hsame.threads, hsame.client, hsame.server]

/-- A step of a worker outside its `killp`. -/
theorem callEffect_setPc {s s' : State} (hsame : SameHolders s s') (hmain : s'.main = s.main)
    {t : Nat} {pc : Pc} (hpc : ∀ u, (s'.thread u).pc = if u = t then pc else (s.thread u).pc)
    (hsock : ∀ i, (s'.sock i).closed = (s.sock i).closed ∧ (s'.sock i).shut = (s.sock i).shut)
    (hbefore : ∀ calls, (s.thread t).pc ≠ .killp calls)
    (hafter : ∀ calls, pc = .killp calls → calls = killp (s.thread t).client (s.thread t).server) :
    CallEffect s s' := by
  refine .other (fun i => .inl (hsock i)) ?_ ?_ (fun h => hmain ▸ h)
  · intro θ a b calls h
    have hne : θ ≠ .worker t := by
      rintro rfl
      exact hbefore calls h.2.1
    exact ((killing_setPc hsame hmain hpc a b calls).1 θ hne).2 h
  · intro θ a b calls h
    by_cases hθ : θ = .worker t
    · subst hθ
      obtain ⟨-, hcalls, rfl, rfl⟩ := (killing_setPc hsame hmain hpc a b calls).2.1 h
      exact .inr (hafter calls hcalls)
    · exact .inl (((killing_setPc hsame hmain hpc a b calls).1 θ hθ).1 h)

/-- A call of a worker's `killp`. -/
theorem proceeds_call {s s' : State} (hsame : SameHolders s s') (hmain : s'.main = s.main)
    {t : Nat} (ht : t < s.threads) (calls : List Call) (raises : Bool)
    (hpc : ∀ u, (s'.thread u).pc =
      if u = t then (if raises then .returned else killpPc calls) else (s.thread u).pc) :
    Proceeds s s' (.worker t) (s.thread t).client (s.thread t).server
      (if raises then [] else calls) where
  others hφ := (killing_setPc hsame hmain hpc _ _ _).1 _ hφ
  own := by
    intro a b calls'
    rw [(killing_setPc hsame hmain hpc a b calls').2]
    cases raises with
    | true => simp
    | false => cases calls <;> simp [killpPc, ht, eq_comm]
  joins h := .inl (hmain ▸ h)

theorem raisePc_of_not_cleaningUp (ws : List Entry) {pc : MainPc} (h : pc.cleaningUp = false) :
    raisePc ws pc = cleanupPc ws ∨ raisePc ws pc = .crashed ∨ raisePc ws pc = .returned := by
  induction pc with
  | handler _ _ ih => exact ih h
  | accept | socket | connect | startT2 | startT1 | append => exact .inl rfl
  | setup | crashed => exact .inr (.inl rfl)
  | returned => exact .inr (.inr rfl)
  | killp | joinT1 | joinT2 => cases h

/-- `inthandler` was not called in the clean-up loop. -/
def CalledOutside (pc : MainPc) : Prop :=
  ∀ line pc', pc = .handler line pc' → pc'.cleaningUp = false

theorem cleanupPc_killp {es rest : List Entry} {calls : List Call} {e : Entry}
    (h : cleanupPc es = .killp calls e rest) : calls = killp e.k e.v := by
  cases es with
  | nil => cases h
  | cons =>
    cases h
    rfl

theorem not_joins_cleanupPc (es : List Entry) (e : Entry) : ¬ (cleanupPc es).AtJoin e := by
  cases es <;> exact id

/-- A move of the main thread outside `killp`. -/
theorem Control.outside_killp {s : State} {a : Action} {ws : List Entry} {pc : MainPc}
    (h : Control s a ws pc) (hkill : ∀ calls e rest, s.main = .killp calls e rest → pc = s.main)
    (houtside : CalledOutside s.main) :
    (∀ calls e rest, pc = .killp calls e rest →
      s.main = .killp calls e rest ∨ calls = killp e.k e.v) ∧
    ∀ e, pc.AtJoin e → s.main.AtJoin e := by
  have hcleanup : ∀ es : List Entry, (∀ calls e rest, cleanupPc es = .killp calls e rest →
      s.main = .killp calls e rest ∨ calls = killp e.k e.v) ∧
      ∀ e, (cleanupPc es).AtJoin e → s.main.AtJoin e := fun es =>
    ⟨fun _ _ _ h => .inr (cleanupPc_killp h), fun e h => absurd h (not_joins_cleanupPc es e)⟩
  cases h with
  | stay => exact ⟨fun _ _ _ h => .inl h, fun _ h => h⟩
  | advance _ hpc => cases pc <;> first | exact absurd hpc id | simp [MainPc.AtJoin]
  | leave => exact hcleanup _
  | joinT2 => exact hcleanup _
  | kill hmain =>
    have heq := hkill _ _ _ hmain
    rw [hmain] at heq
    simp at heq
  | killed hmain =>
    have heq := hkill _ _ _ hmain
    rw [hmain] at heq
    cases heq
  | joinT1 hmain => simp [MainPc.AtJoin, hmain]
  | unwind hmain =>
    rcases raisePc_of_not_cleaningUp s.workers (houtside _ _ hmain) with h | h | h
    · rw [h]
      exact hcleanup _
    · simp [h, MainPc.AtJoin]
    · simp [h, MainPc.AtJoin]
  | enter | start | record | crash | interrupt | print => simp [MainPc.AtJoin]

/-- A step that is not a call of a `killp` of the main thread, and starts at most one
thread. -/
theorem callEffect_control {s s' : State} {a : Action}
    (hcontrol : Control s a s'.workers s'.main)
    (hkill : ∀ calls e rest, s.main = .killp calls e rest → s'.main = s.main)
    (houtside : CalledOutside s.main)
    (hsock : ∀ i, s'.sock i = s.sock i ∨ (s'.sock i).closed = false ∧ s.socks ≤ i)
    (hthread : ∀ t a b calls, Killing s' a b calls (.worker t) ↔ Killing s a b calls (.worker t)) :
    CallEffect s s' := by
  obtain ⟨hnew, hjoins⟩ := hcontrol.outside_killp hkill houtside
  refine .other (fun i => ?_) ?_ ?_ (hjoins _)
  · rcases hsock i with h | h
    · exact .inl ⟨congrArg _ h, congrArg _ h⟩
    · exact .inr h
  · intro θ a b calls h
    cases θ with
    | worker t => exact (hthread t a b calls).2 h
    | main =>
      obtain ⟨e, rest, hmain, rfl, rfl⟩ := h
      exact ⟨e, rest, (hkill _ _ _ hmain).trans hmain, rfl, rfl⟩
  · intro θ a b calls h
    cases θ with
    | worker t => exact .inl ((hthread t a b calls).1 h)
    | main =>
      obtain ⟨e, rest, hmain, rfl, rfl⟩ := h
      exact (hnew calls e rest hmain).imp_left fun hmain => ⟨e, rest, hmain, rfl, rfl⟩

theorem killing_startThread {s : State} {i j : Nat} {d : Direction} {pc : MainPc}
    (t a b : Nat) (calls : List Call) :
    Killing ((s.startThread i j d).setMain pc) a b calls (.worker t) ↔
      Killing s a b calls (.worker t) := by
  rcases Nat.lt_trichotomy t s.threads with h | rfl | h
  · simp [Killing, Nat.ne_of_lt h, h, Nat.lt_succ_of_lt h]
  · simp [Killing]
  · simp [Killing, Nat.ne_of_gt h, Nat.not_lt.2 (Nat.le_of_lt h), Nat.not_lt.2 h]

/-- A call of a `killp` of the main thread. -/
theorem proceeds_mainCall {s s' : State} {c : Call} {calls : List Call} {e : Entry}
    {rest : List Entry} (hmain : s.main = .killp (c :: calls) e rest) (raises : Bool)
    (hsame : SameHolders s s') (hpc : ∀ t, (s'.thread t).pc = (s.thread t).pc)
    (hmain' : s'.main = if raises then .joinT1 e rest else
      if calls = [] then .joinT1 e rest else .killp calls e rest) :
    Proceeds s s' .main e.k e.v (if raises then [] else calls) where
  others := by
    intro φ a b calls' hφ
    cases φ with
    | worker t => simp [Killing, hpc, hsame.threads, hsame.client, hsame.server]
    | main => exact absurd rfl hφ
  own := by
    intro a b calls'
    cases raises with
    | true => simp [Killing, hmain']
    | false =>
      cases calls with
      | nil => simp [Killing, hmain']
      | cons d calls =>
        have hmain' : s'.main = .killp (d :: calls) e rest := by simpa using hmain'
        constructor
        · rintro ⟨e', rest', h, rfl, rfl⟩
          rw [hmain'] at h
          cases h
          exact ⟨rfl, by simp, rfl, rfl⟩
        · rintro ⟨rfl, -, rfl, rfl⟩
          exact ⟨e, rest, hmain', rfl, rfl⟩
  joins := by
    intro e' h
    rw [hmain'] at h
    split_ifs at h with h1 h2
    · cases h
      exact .inr ⟨rfl, if_pos h1, rfl, rfl⟩
    · cases h
      exact .inr ⟨rfl, by rw [if_neg h1, h2], rfl, rfl⟩
    · exact absurd h id

/-- The list is complete under the condition. -/
theorem step_callEffect {s s' : State} {a : Action} (hs : proxy.Reachable s)
    (houtside : CalledOutside s.main) (hC : cleansUp s a = true)
    (hstep : proxy.step s a = some s') : CallEffect s s' := by
  have hcontrol := step_control hs hstep
  have heffect := step_effect hstep
  cases heffect with
  | @silent t o pc pc' ht hpc hmove =>
    exact callEffect_setPc (.setPc ..) rfl (fun u => State.setPc_pc s t u pc') (fun i => ⟨rfl, rfl⟩)
      (hpc ▸ hmove.not_killp) (fun calls => hmove.calls_eq)
  | @receive t b ht hpc =>
    refine callEffect_setPc (.setSocket_setPc ..) rfl (fun u => State.setPc_pc _ t u (.read b))
      (fun i => ?_) (by simp [hpc]) (by simp)
    rw [State.setPc_sock, State.setSocket_sock]
    split_ifs with h <;> simp [h]
  | @write t b tmp ht hpc =>
    exact callEffect_setPc (.setCounter_setPc ..) rfl (fun u => State.setPc_pc _ t u (.send b))
      (fun i => ⟨rfl, rfl⟩) (by simp [hpc]) (by simp)
  | @sent t b n ht hpc hpos hle =>
    refine callEffect_setPc (.setSocket_setPc ..) rfl (fun u => State.setPc_pc _ t u .loop)
      (fun i => ?_) (by simp [hpc]) (by simp)
    rw [State.setPc_sock, State.setSocket_sock]
    split_ifs with h <;> simp [h]
  | @call t c calls s₁ raises ht hpc hrun =>
    have hraises : raises = true → (s.sock c.target).closed = true := by
      rintro rfl
      simpa [callOutcome, cleansUp, hpc] using hC
    refine callEffect_of_run (θ := .worker t) ⟨ht, hpc, rfl, rfl⟩ hrun hraises rfl ?_
    obtain ⟨x, rfl, -⟩ := Call.run_eq hrun
    exact proceeds_call (.setSocket_setPc ..) rfl ht calls raises fun u => State.setPc_pc _ t u _
  | @idle a ha pc ws hpc hkill =>
    refine callEffect_control hcontrol (fun calls e rest hmain => ?_) houtside
      (fun i => .inl rfl) fun t a b calls => Iff.rfl
    rcases hkill calls e rest hmain with h | rfl
    · exact h
    · simp [cleansUp, hmain, MainPc.cleaningUp] at hC
  | handler hmain =>
    exact callEffect_control hcontrol (by simp [hmain]) houtside (fun i => .inl rfl)
      fun t a b calls => Iff.rfl
  | accept hmain | socket hmain =>
    refine callEffect_control hcontrol (by simp [hmain]) houtside (fun i => ?_)
      fun t a b calls => Iff.rfl
    rw [State.setMain_sock, State.makeSocket_sock]
    split_ifs with h
    · exact .inr ⟨rfl, Nat.le_of_eq h.symm⟩
    · exact .inl rfl
  | connect hmain =>
    exact callEffect_control hcontrol (by simp [hmain]) houtside (fun i => .inl rfl)
      fun t a b calls => Iff.rfl
  | startT2 hmain | startT1 hmain =>
    exact callEffect_control hcontrol (by simp [hmain]) houtside (fun i => .inl rfl)
      killing_startThread
  | @mainCall c calls e rest s₁ raises hmain hrun =>
    have hraises : raises = true → (s.sock c.target).closed = true := by
      rintro rfl
      simpa [callOutcome, cleansUp, hmain] using hC
    refine callEffect_of_run (θ := .main) ⟨e, rest, hmain, rfl, rfl⟩ hrun hraises rfl ?_
    obtain ⟨x, rfl, -⟩ := Call.run_eq hrun
    exact proceeds_mainCall hmain raises (.setSocket_setMain ..) (fun t => rfl) rfl

end Cheesecloth.Proxy
