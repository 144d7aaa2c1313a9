import Cheesecloth.Proxy.Teardown

/-!
# The end of the relay

`doProxyMain` leaves its accept loop, closes the sockets of every connection that
it has recorded, and joins the two threads of each.

* `serving_ends`: the loop is left by an exception in the main thread, or by a
  keyboard interrupt, whose handler raises one.  `SIGTERM` does not end it, since
  `signalhandler` sets a local variable.  Once left, the loop is never entered again.
* `shutdown_complete`: when `doProxyMain` returns, both threads of every recorded
  connection have returned, and under `raisesWhenClosed` its sockets are closed.

Whether it returns is another matter: a `join` waits for a worker, and that worker may
wait for its peer.
-/

namespace Cheesecloth.Proxy

open CodeLib

/-! ## Where the main thread goes -/

/-- The main thread is in the accept loop. -/
def MainPc.Serving : MainPc → Prop
  | .accept | .socket _ | .connect _ _ | .startT2 _ _ | .startT1 _ _ _ | .append _ => True
  | _ => False

/-- The main thread has left the accept loop, or will not come to it: `inthandler` does
not return to the place where it was called. -/
def MainPc.Leaving : MainPc → Prop
  | .killp _ _ _ | .joinT1 _ _ | .joinT2 _ _ | .handler _ _ | .returned | .crashed => True
  | _ => False

theorem leaving_cleanupPc (es : List Entry) : (cleanupPc es).Leaving := by
  cases es <;> trivial

theorem leaving_raisePc (ws : List Entry) (pc : MainPc) : (raisePc ws pc).Leaving := by
  induction pc with
  | handler _ _ ih => exact ih
  | accept | socket | connect | startT2 | startT1 | append => exact leaving_cleanupPc ws
  | setup | killp | joinT1 | joinT2 | returned | crashed => trivial

theorem MainPc.Leaving.not_serving {pc : MainPc} (h : pc.Leaving) : ¬ pc.Serving := by
  cases pc <;> first | exact id | exact absurd h id

/-- An action that raises in the main thread, at once or at the end of `inthandler`. -/
def Action.Raises (a : Action) : Prop := a = .main .raises ∨ a = .sigint

/-- The moves of the main thread, by its place and its list of connections. -/
inductive Control (s : State) : Action → List Entry → MainPc → Prop
  | stay {a} (ha : ∀ o, a ≠ .main o) : Control s a s.workers s.main
  | enter (hmain : s.main = .setup) : Control s (.main .ok) [] .accept
  | advance {pc} (hmain : s.main.Serving) (hpc : pc.Serving) (hne : ∀ e, pc ≠ .append e) :
    Control s (.main .ok) s.workers pc
  | start {k v t2} (hmain : s.main = .startT1 k v t2) :
    Control s (.main .ok) s.workers (.append ⟨s.threads, t2, k, v⟩)
  | record {e} (hmain : s.main = .append e) : Control s (.main .ok) (s.workers ++ [e]) .accept
  | leave (hmain : s.main.Serving) : Control s (.main .raises) s.workers (cleanupPc s.workers)
  | kill {c calls e rest} (hmain : s.main = .killp (c :: calls) e rest) (hne : calls ≠ []) :
    Control s (.main .ok) s.workers (.killp calls e rest)
  | killed {o c calls e rest} (hmain : s.main = .killp (c :: calls) e rest) :
    Control s (.main o) s.workers (.joinT1 e rest)
  | joinT1 {e rest} (hmain : s.main = .joinT1 e rest) (ht : (s.thread e.t1).pc = .returned) :
    Control s (.main .ok) s.workers (.joinT2 e rest)
  | joinT2 {e rest} (hmain : s.main = .joinT2 e rest) (ht : (s.thread e.t2).pc = .returned) :
    Control s (.main .ok) s.workers (cleanupPc rest)
  | crash (hmain : s.main = .setup) : Control s (.main .raises) s.workers .crashed
  | interrupt : Control s .sigint s.workers (.handler .c2s s.main)
  | print {line line' pc} (hmain : s.main = .handler line pc) :
    Control s (.main .ok) s.workers (.handler line' pc)
  | unwind {line pc} (hmain : s.main = .handler line pc) :
    Control s (.main .ok) s.workers (raisePc s.workers pc)

theorem Effect.worker_control {s s' : State} {t : Nat} {o : Outcome}
    (h : Effect s (.worker t o) s') : s'.workers = s.workers ∧ s'.main = s.main := by
  cases h with
  | silent | receive | write | sent => simp
  | call raises ht hpc hrun =>
    obtain ⟨x, rfl, -⟩ := Call.run_eq hrun
    simp
  | idle ha => cases ha

theorem mainStep_control {s s' : State} {o : Outcome} (hrunning : s.running = true)
    (h : mainStep s o = some s') : Control s (.main o) s'.workers s'.main := by
  unfold mainStep at h
  split at h
  case h_1 hmain =>
    cases h
    simpa [acceptLoop, hrunning] using Control.enter hmain
  case h_2 hmain | h_3 hmain | h_4 hmain | h_5 hmain =>
    cases h
    exact .advance (by simp [hmain, MainPc.Serving]) trivial (by simp)
  case h_6 hmain =>
    cases h
    exact .start hmain
  case h_7 hmain =>
    cases h
    simpa [acceptLoop, hrunning] using Control.record hmain
  case h_8 calls e rest hmain =>
    obtain ⟨s₁, hrun, rfl⟩ := Option.map_eq_some_iff.1 h
    obtain ⟨x, rfl, -⟩ := Call.run_eq hrun
    by_cases hne : calls = []
    · simpa [hne] using Control.killed hmain
    · simpa [hne] using Control.kill hmain hne
  case h_9 hmain =>
    obtain ⟨s₁, hrun, rfl⟩ := Option.map_eq_some_iff.1 h
    obtain ⟨x, rfl, -⟩ := Call.run_eq hrun
    exact .killed hmain
  case h_10 hmain =>
    split_ifs at h with hreturned
    cases h
    exact .joinT1 hmain hreturned
  case h_11 hmain =>
    split_ifs at h with hreturned
    cases h
    exact .joinT2 hmain hreturned
  case h_12 line pc hmain =>
    cases h
    cases line with
    | flush => simpa [inthandler, mainRaise, hmain, raisePc] using Control.unwind hmain
    | c2s | s2c | total | sum => exact .print hmain
  case h_13 hmain =>
    cases h
    simpa [mainRaise, hmain, raisePc] using Control.crash hmain
  case h_14 hmain | h_15 hmain | h_16 hmain | h_17 hmain | h_18 hmain =>
    cases h
    simpa [mainRaise, hmain, raisePc] using
      Control.leave (s := s) (by simp [hmain, MainPc.Serving])
  case h_19 => cases h

theorem step_control {s s' : State} {a : Action} (hs : proxy.Reachable s)
    (h : proxy.step s a = some s') : Control s a s'.workers s'.main := by
  cases a with
  | worker t o =>
    obtain ⟨hworkers, hmain⟩ := (step_effect h).worker_control
    rw [hworkers, hmain]
    exact .stay (by simp)
  | main o => exact mainStep_control (reachable_running hs) h
  | sigint =>
    cases h
    exact .interrupt
  | sigterm =>
    cases h
    exact .stay (by simp)

/-! ## The accept loop -/

theorem Control.leaving {s : State} {a : Action} {ws : List Entry} {pc : MainPc}
    (h : Control s a ws pc) (hs : s.main.Leaving) : pc.Leaving := by
  have hserving := hs.not_serving
  cases h with
  | stay => exact hs
  | enter hmain => simp [hmain, MainPc.Leaving] at hs
  | advance hmain => exact absurd hmain hserving
  | start hmain => simp [hmain, MainPc.Leaving] at hs
  | record hmain => simp [hmain, MainPc.Leaving] at hs
  | leave hmain => exact absurd hmain hserving
  | joinT2 => exact leaving_cleanupPc _
  | unwind => exact leaving_raisePc _ _
  | kill | killed | joinT1 | crash | interrupt | print => trivial

theorem Control.raises {s : State} {a : Action} {ws : List Entry} {pc : MainPc}
    (h : Control s a ws pc) (hs : s.main.Serving) (hpc : ¬ pc.Serving) :
    a.Raises ∧ pc.Leaving := by
  cases h with
  | stay => exact absurd hs hpc
  | advance _ hserving => exact absurd hserving hpc
  | enter | start | record => exact absurd trivial hpc
  | leave => exact ⟨.inl rfl, leaving_cleanupPc _⟩
  | interrupt => exact ⟨.inr rfl, trivial⟩
  | kill hmain => simp [hmain, MainPc.Serving] at hs
  | killed hmain => simp [hmain, MainPc.Serving] at hs
  | joinT1 hmain => simp [hmain, MainPc.Serving] at hs
  | joinT2 hmain => simp [hmain, MainPc.Serving] at hs
  | crash hmain => simp [hmain, MainPc.Serving] at hs
  | print hmain => simp [hmain, MainPc.Serving] at hs
  | unwind hmain => simp [hmain, MainPc.Serving] at hs

/-- A run from `s`. -/
def RunsTo (s s' : State) : Prop := Relation.ReflTransGen (proxy.StepVia fun _ _ => True) s s'

/-- The accept loop is left by an exception in the main thread only, and it is
never entered again.  It does not end by `running`, whatever the signals. -/
theorem serving_ends {s s' : State} {a : Action} (hs : proxy.Reachable s)
    (hserving : s.main.Serving) (hstep : proxy.step s a = some s') (hleft : ¬ s'.main.Serving) :
    a.Raises ∧ ∀ u, RunsTo s' u → ¬ u.main.Serving := by
  obtain ⟨ha, hleaving⟩ := (step_control hs hstep).raises hserving hleft
  refine ⟨ha, fun u hu => ?_⟩
  have hs' : proxy.Reachable s' := System.ReachableVia.tail hs trivial hstep
  have hrun : proxy.Reachable u ∧ u.main.Leaving := by
    induction hu with
    | refl => exact ⟨hs', hleaving⟩
    | tail _ hstep ih =>
      obtain ⟨a, _, hstep⟩ := hstep
      exact ⟨System.ReachableVia.tail ih.1 trivial hstep,
        (step_control ih.1 hstep).leaving ih.2⟩
  exact hrun.2.not_serving

/-- A server that refuses the connection ends the relay for every client. -/
theorem serving_ends_refused :
    ∃ s s', proxy.Reachable s ∧ s.main = .connect 2 3 ∧
      proxy.step s (.main .raises) = some s' ∧ ∀ u, RunsTo s' u → ¬ u.main.Serving := by
  have hrun : (proxy.execVia (fun _ _ => true) (connectRun ++
      List.replicate 2 (.main .ok)) proxy.init).map (fun s => (s.main, s.workers)) =
        some (.connect 2 3, [⟨1, 0, 0, 1⟩]) := by
    decide +kernel
  obtain ⟨s, hexec, hs⟩ := Option.map_eq_some_iff.1 hrun
  simp only [Prod.mk.injEq] at hs
  obtain ⟨hmain, hworkers⟩ := hs
  have hreach := (System.reachableVia_exec hexec).reachable
  have hstep : proxy.step s (.main .raises) =
      some (s.setMain (.killp (killp 0 1) ⟨1, 0, 0, 1⟩ [])) := by
    simp [proxy, step, mainStep, mainRaise, raisePc, cleanupPc, hmain, hworkers]
  have hends := serving_ends hreach (by simp [hmain, MainPc.Serving]) hstep id
  exact ⟨s, _, hreach, hmain, hstep, hends.2⟩

/-! ## The threads of a connection -/

/-- Both threads of the connection run, or have run, on its sockets. -/
structure Entry.Started (s : State) (e : Entry) : Prop where
  t1_lt : e.t1 < s.threads
  t2_lt : e.t2 < s.threads
  t1_client : (s.thread e.t1).client = e.k
  t1_server : (s.thread e.t1).server = e.v
  t2_client : (s.thread e.t2).client = e.v
  t2_server : (s.thread e.t2).server = e.k

/-- Both threads of the connection have returned. -/
structure Entry.Ended (s : State) (e : Entry) : Prop where
  t1_returned : (s.thread e.t1).pc = .returned
  t2_returned : (s.thread e.t2).pc = .returned

/-- A thread keeps its sockets, and one that has returned does not run again. -/
structure Kept (s s' : State) (t : Nat) : Prop where
  lt : t < s'.threads
  client : (s'.thread t).client = (s.thread t).client
  server : (s'.thread t).server = (s.thread t).server
  returned : (s.thread t).pc = .returned → (s'.thread t).pc = .returned

theorem SameHolders.kept {s s' : State} (h : SameHolders s s') {t : Nat} (ht : t < s.threads)
    (hreturned : (s.thread t).pc = .returned → (s'.thread t).pc = .returned) : Kept s s' t :=
  ⟨h.threads ▸ ht, h.client t, h.server t, hreturned⟩

/-- The thread that moves has not returned. -/
theorem setPc_returned {s : State} {t u : Nat} {pc : Pc} (hpc : (s.thread u).pc ≠ .returned)
    (h : (s.thread t).pc = .returned) : ((s.setPc u pc).thread t).pc = .returned := by
  have hne : t ≠ u := by
    rintro rfl
    exact hpc h
  simpa [hne] using h

theorem kept_startThread {s : State} {i j : Nat} {d : Direction} {pc : MainPc} {t : Nat}
    (ht : t < s.threads) : Kept s ((s.startThread i j d).setMain pc) t := by
  have hne : t ≠ s.threads := by omega
  constructor <;> simp [hne]
  omega

theorem Effect.kept {s s' : State} {a : Action} (h : Effect s a s') {t : Nat}
    (ht : t < s.threads) : Kept s s' t := by
  cases h with
  | silent _ hpc hmove =>
    refine (SameHolders.setPc ..).kept ht (setPc_returned ?_)
    rw [hpc]
    cases hmove <;> simp
  | receive _ hpc => exact (SameHolders.setSocket_setPc ..).kept ht (setPc_returned (by simp [hpc]))
  | write _ hpc => exact (SameHolders.setCounter_setPc ..).kept ht (setPc_returned (by simp [hpc]))
  | sent _ hpc => exact (SameHolders.setSocket_setPc ..).kept ht (setPc_returned (by simp [hpc]))
  | call raises _ hpc hrun =>
    obtain ⟨x, rfl, -⟩ := Call.run_eq hrun
    exact (SameHolders.setSocket_setPc ..).kept ht (setPc_returned (by simp [hpc]))
  | idle | handler | accept | socket | connect => exact ⟨ht, rfl, rfl, id⟩
  | startT2 => exact kept_startThread ht
  | startT1 => exact kept_startThread ht
  | mainCall raises _ hrun =>
    obtain ⟨x, rfl, -⟩ := Call.run_eq hrun
    exact ⟨ht, rfl, rfl, id⟩

theorem Effect.started {s s' : State} {a : Action} (h : Effect s a s') {e : Entry}
    (he : e.Started s) : e.Started s' := by
  have h1 := h.kept he.t1_lt
  have h2 := h.kept he.t2_lt
  exact ⟨h1.lt, h2.lt, h1.client.trans he.t1_client, h1.server.trans he.t1_server,
    h2.client.trans he.t2_client, h2.server.trans he.t2_server⟩

/-- The connections that are recorded, and the one about to be, have been started. -/
structure Recorded (s : State) : Prop where
  workers : ∀ e ∈ s.workers, e.Started s
  append : ∀ e, s.main = .append e → e.Started s

theorem Control.started {s : State} {a : Action} {ws : List Entry} {pc : MainPc}
    (h : Control s a ws pc) (hs : Recorded s) : ∀ e ∈ ws, e.Started s := by
  cases h with
  | enter => simp
  | record hmain =>
    intro e he
    rcases List.mem_append.1 he with he | he
    · exact hs.workers e he
    · rw [List.mem_singleton.1 he]
      exact hs.append _ hmain
  | _ => exact hs.workers

/-- `t1.start()`, after `t2.start()` on the same sockets. -/
theorem started_startT1 {s s' : State} {k v t2 : Nat} (hwired : Wired s)
    (hmain : s.main = .startT1 k v t2) (h : proxy.step s (.main .ok) = some s') :
    Entry.Started s' ⟨s.threads, t2, k, v⟩ := by
  have hmaking := hwired.making
  simp only [MakingWired, hmain] at hmaking
  obtain ⟨-, -, -, ht2, hclient, hserver⟩ := hmaking
  have hs' : (s.startThread k v .client2server).setMain (.append ⟨s.threads, t2, k, v⟩) = s' := by
    simpa [proxy, step, mainStep, hmain] using h
  have hne : t2 ≠ s.threads := by omega
  subst hs'
  constructor <;> simp [hne, hclient, hserver]
  omega

theorem reachable_recorded {s : State} (hs : proxy.Reachable s) : Recorded s := by
  refine hs.invariant (I := Recorded) ⟨by simp [proxy, init], by simp [proxy, init]⟩ ?_
  intro s a s' hs _ hstep hrecorded
  have hcontrol := step_control hs hstep
  refine ⟨fun e he => (step_effect hstep).started (hcontrol.started hrecorded e he), ?_⟩
  intro e he
  generalize s'.workers = ws at hcontrol
  generalize s'.main = pc at hcontrol he
  cases hcontrol with
  | stay => exact (step_effect hstep).started (hrecorded.append e he)
  | advance _ _ hne => exact absurd he (hne e)
  | start hmain =>
    cases he
    exact started_startT1 (reachable_wired hs) hmain hstep
  | leave => exact (he ▸ leaving_cleanupPc _ : MainPc.Leaving (.append e)).elim
  | joinT2 => exact (he ▸ leaving_cleanupPc _ : MainPc.Leaving (.append e)).elim
  | unwind => exact (he ▸ leaving_raisePc _ _ : MainPc.Leaving (.append e)).elim
  | _ => cases he

/-! ## The joins -/

/-- All of `ws` but `rest` has ended. -/
def Joined (s : State) (ws rest : List Entry) : Prop :=
  ∃ done, ws = done ++ rest ∧ ∀ e ∈ done, e.Ended s

theorem Joined.mem {s : State} {ws rest : List Entry} {e : Entry} (h : Joined s ws (e :: rest)) :
    e ∈ ws := by
  obtain ⟨done, rfl, -⟩ := h
  simp

/-- What the clean-up loop knows at each place. -/
def Joining (s : State) (ws : List Entry) : MainPc → Prop
  | .killp _ e rest | .joinT1 e rest => Joined s ws (e :: rest)
  | .joinT2 e rest => Joined s ws (e :: rest) ∧ (s.thread e.t1).pc = .returned
  | .returned => Joined s ws []
  | .handler _ pc => Joining s ws pc
  | _ => True

theorem joining_cleanupPc {s : State} {ws rest : List Entry} (h : Joined s ws rest) :
    Joining s ws (cleanupPc rest) := by
  cases rest <;> exact h

theorem joining_raisePc {s : State} {ws : List Entry} {pc : MainPc} (h : Joining s ws pc) :
    Joining s ws (raisePc ws pc) := by
  induction pc with
  | handler _ _ ih => exact ih h
  | accept | socket | connect | startT2 | startT1 | append =>
    exact joining_cleanupPc ⟨[], rfl, by simp⟩
  | killp | returned => exact h
  | setup | joinT1 | joinT2 | crashed => trivial

theorem joining_of_serving {s : State} {ws : List Entry} {pc : MainPc} (h : pc.Serving) :
    Joining s ws pc := by
  cases pc <;> first | exact trivial | exact absurd h id

theorem Joined.next {s : State} {ws rest : List Entry} {e : Entry} (h : Joined s ws (e :: rest))
    (he : e.Ended s) : Joined s ws rest := by
  obtain ⟨done, rfl, hdone⟩ := h
  refine ⟨done ++ [e], by simp, fun d hd => ?_⟩
  rcases List.mem_append.1 hd with hd | hd
  · exact hdone d hd
  · rwa [List.mem_singleton.1 hd]

theorem Control.joining {s : State} {a : Action} {ws : List Entry} {pc : MainPc}
    (h : Control s a ws pc) (hs : Joining s s.workers s.main) : Joining s ws pc := by
  cases h with
  | stay => exact hs
  | enter | start | record | crash => trivial
  | advance _ hpc => exact joining_of_serving hpc
  | leave => exact joining_cleanupPc ⟨[], rfl, by simp⟩
  | kill hmain =>
    rw [hmain] at hs
    exact hs
  | killed hmain =>
    rw [hmain] at hs
    exact hs
  | joinT1 hmain ht =>
    rw [hmain] at hs
    exact ⟨hs, ht⟩
  | joinT2 hmain ht =>
    rw [hmain] at hs
    exact joining_cleanupPc (hs.1.next ⟨hs.2, ht⟩)
  | interrupt => exact hs
  | print hmain =>
    rw [hmain] at hs
    exact hs
  | unwind hmain =>
    rw [hmain] at hs
    exact joining_raisePc hs

/-- The threads that were joined stay returned. -/
theorem Joining.mono {s s' : State} {ws : List Entry} {pc : MainPc}
    (hkept : ∀ e ∈ ws, Kept s s' e.t1 ∧ Kept s s' e.t2) (h : Joining s ws pc) :
    Joining s' ws pc := by
  have hjoined : ∀ rest, Joined s ws rest → Joined s' ws rest := by
    rintro rest ⟨done, rfl, hdone⟩
    refine ⟨done, rfl, fun e he => ?_⟩
    have hkept := hkept e (List.mem_append_left _ he)
    exact ⟨hkept.1.returned (hdone e he).t1_returned, hkept.2.returned (hdone e he).t2_returned⟩
  induction pc with
  | handler _ _ ih => exact ih h
  | killp | joinT1 | returned => exact hjoined _ h
  | joinT2 e rest =>
    obtain ⟨hdone, ht1⟩ := h
    exact ⟨hjoined _ hdone, (hkept e hdone.mem).1.returned ht1⟩
  | _ => trivial

theorem reachable_joining {s : State} (hs : proxy.Reachable s) :
    Joining s s.workers s.main := by
  refine hs.invariant (I := fun s => Joining s s.workers s.main) ?_ ?_
  · exact trivial
  intro s a s' hs _ hstep hjoining
  have hcontrol := step_control hs hstep
  have hstarted := hcontrol.started (reachable_recorded hs)
  have heffect := step_effect hstep
  exact (hcontrol.joining hjoining).mono fun e he =>
    ⟨heffect.kept (hstarted e he).t1_lt, heffect.kept (hstarted e he).t2_lt⟩

theorem ended_of_returned {s : State} (hs : proxy.Reachable s) (hmain : s.main = .returned)
    {e : Entry} (he : e ∈ s.workers) : e.Ended s := by
  have hjoining := reachable_joining hs
  rw [hmain] at hjoining
  obtain ⟨done, hdone, hended⟩ := hjoining
  rw [List.append_nil] at hdone
  exact hended e (hdone ▸ he)

/-- When `doProxyMain` returns, both threads of every recorded connection have
returned.  If no call of a worker's `killp` raised too early, the sockets of the
connection are closed. -/
theorem shutdown_complete :
    (∀ s, proxy.Reachable s → s.main = .returned → ∀ e ∈ s.workers, e.Ended s) ∧
    ∀ s, proxy.ReachableVia (fun s a => raisesWhenClosed s a) s → s.main = .returned →
      ∀ e ∈ s.workers, (s.sock e.k).closed = true ∧ (s.sock e.v).closed = true := by
  refine ⟨fun s hs hmain e he => ended_of_returned hs hmain he, fun s hs hmain e he => ?_⟩
  have hstarted := (reachable_recorded hs.reachable).workers e he
  have hclosed := tornDown_of_closing (reachableVia_closing hs) e.t1 hstarted.t1_lt
    (ended_of_returned hs.reachable hmain he).t1_returned
  rwa [hstarted.t1_client, hstarted.t1_server] at hclosed

/-- A keyboard interrupt with one connection open.  The workers find their sockets
closed, and their own `killp` raises at once. -/
theorem shutdown_complete_interrupt :
    ∃ s e, proxy.ReachableVia (fun s a => raisesWhenClosed s a) s ∧ s.main = .returned ∧
      s.workers = [e] ∧ e.Ended s ∧ (s.sock e.k).closed = true ∧ (s.sock e.v).closed = true := by
  have hrun : (proxy.execVia raisesWhenClosed (connectRun ++ [.sigint] ++
      List.replicate 9 (.main .ok) ++ [.ok, .ok, .raises].map (.worker 0) ++
      [.ok, .ok, .raises].map (.worker 1) ++ List.replicate 2 (.main .ok)) proxy.init).map
        (fun s => (s.main, s.workers)) = some (.returned, [⟨1, 0, 0, 1⟩]) := by
    decide +kernel
  obtain ⟨s, hexec, hs⟩ := Option.map_eq_some_iff.1 hrun
  simp only [Prod.mk.injEq] at hs
  obtain ⟨hmain, hworkers⟩ := hs
  have hreach := System.reachableVia_exec hexec
  have hmem : (⟨1, 0, 0, 1⟩ : Entry) ∈ s.workers := by simp [hworkers]
  exact ⟨s, _, hreach, hmain, hworkers, shutdown_complete.1 s hreach.reachable hmain _ hmem,
    shutdown_complete.2 s hreach hmain _ hmem⟩

end Cheesecloth.Proxy
