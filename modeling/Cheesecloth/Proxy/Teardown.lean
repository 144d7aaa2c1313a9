import Cheesecloth.Proxy.Streams

/-!
# The end of a connection

A worker that leaves its loop runs `killp` on its two sockets and returns.
`killp` makes its four calls in one block that swallows exceptions, so a call
that raises leaves the later sockets open.  A peer that has reset the
connection makes the first `shutdown` raise, and then neither socket is closed
(`killp_leaves_open`).

* `raisesWhenClosed` is the condition for a complete end: a call of a worker's
  `killp` raises only when the sockets that the later calls would close are
  closed already.
* `teardown_complete`: under the condition both sockets are closed once either
  worker has returned, and no worker starts to wait on them again.  The
  condition is exact: the first step that does not meet it leaves a worker
  returned with a socket open.
-/

namespace Cheesecloth.Proxy

open CodeLib

/-! ## What a complete end is -/

/-- Both sockets of a worker that has returned are closed. -/
def TornDown (s : State) : Prop :=
  ∀ t < s.threads, (s.thread t).pc = .returned →
    (s.sock (s.thread t).client).closed = true ∧ (s.sock (s.thread t).server).closed = true

/-- Once a worker has returned, no worker of its connection starts to wait in
`recv`. -/
def NeverWaits (s : State) : Prop :=
  ∀ t < s.threads, (s.thread t).pc = .returned → ∀ u < s.threads,
    (s.thread u).client = (s.thread t).client ∨ (s.thread u).client = (s.thread t).server →
    (s.thread u).pc = .recv → ∀ o s', proxy.step s (.worker u o) = some s' →
    (s'.thread u).pc ≠ .receiving

/-- A call of a worker's `killp` raises only when the sockets that the later
calls would close are closed already. -/
def raisesWhenClosed (s : State) : Action → Bool
  | .worker t .raises =>
    match (s.thread t).pc with
    | .killp (_ :: calls) => calls.all fun
      | .close i => (s.sock i).closed
      | .shutdown _ => true
    | _ => true
  | _ => true

/-! ## Sockets stay closed -/

theorem setSocket_closed {s : State} {i j : Nat} {x : Socket}
    (hx : (s.sock i).closed = true → x.closed = true) (h : (s.sock j).closed = true) :
    ((s.setSocket i x).sock j).closed = true := by
  rw [State.setSocket_sock]
  split_ifs with hij
  · subst hij
    exact hx h
  · exact h

theorem Effect.closed {s s' : State} {a : Action} (h : Effect s a s') {i : Nat} (hi : i < s.socks)
    (hclosed : (s.sock i).closed = true) : (s'.sock i).closed = true := by
  cases h with
  | silent | idle | handler | connect | startT2 | startT1 => exact hclosed
  | write => simpa using hclosed
  | receive => exact setSocket_closed id hclosed
  | sent => exact setSocket_closed id hclosed
  | call raises ht hpc hrun =>
    obtain ⟨x, rfl, -, -, hx, -⟩ := Call.run_eq hrun
    exact setSocket_closed hx hclosed
  | accept => simpa [Nat.ne_of_lt hi] using hclosed
  | socket => simpa [Nat.ne_of_lt hi] using hclosed
  | mainCall raises _ hrun =>
    obtain ⟨x, rfl, -, -, hx, -⟩ := Call.run_eq hrun
    exact setSocket_closed hx hclosed

/-! ## The calls that are left -/

/-- The worker is still to close the socket `i`. -/
def Pc.WillClose (i : Nat) : Pc → Prop
  | .killp calls => .close i ∈ calls
  | .returned => False
  | _ => True

/-- Both sockets of a worker are closed, or it is still to close them. -/
def Closing (s : State) (t : Nat) : Prop :=
  ∀ i, i = (s.thread t).client ∨ i = (s.thread t).server →
    (s.sock i).closed = true ∨ (s.thread t).pc.WillClose i

theorem willClose_killp {a b i : Nat} (hi : i = a ∨ i = b) :
    (Pc.killp (killp a b)).WillClose i := by
  simpa [Pc.WillClose, killp] using hi

theorem willClose_killpPc {calls : List Call} {i : Nat} (hi : .close i ∈ calls) :
    (killpPc calls).WillClose i := by
  cases calls with
  | nil => cases hi
  | cons c calls => exact hi

theorem Silent.willClose {s : State} {w : Worker} {pc pc' : Pc} {o : Outcome}
    (h : Silent s w pc o pc') {i : Nat} (hi : i = w.client ∨ i = w.server) : pc'.WillClose i := by
  cases h <;> first | exact trivial | exact willClose_killp hi

/-- A worker that does not move. -/
theorem Effect.closing_of_pc {s s' : State} {a : Action} (h : Effect s a s') (hwired : Wired s)
    {u : Nat} (hu : u < s.threads) (hclient : (s'.thread u).client = (s.thread u).client)
    (hserver : (s'.thread u).server = (s.thread u).server)
    (hpc : (s'.thread u).pc = (s.thread u).pc) (hs : Closing s u) : Closing s' u := by
  intro i hi
  rw [hclient, hserver] at hi
  have hlt : i < s.socks := by
    rcases hi with rfl | rfl
    · exact hwired.client_lt u hu
    · exact hwired.server_lt u hu
  rw [hpc]
  exact (hs i hi).imp_left (h.closed hlt)

/-- A step of the worker `t`. -/
theorem Effect.closing_setPc {s s' : State} {a : Action} (h : Effect s a s') (hwired : Wired s)
    (hsame : SameHolders s s') {t : Nat} {pc : Pc}
    (hpc : ∀ u, (s'.thread u).pc = if u = t then pc else (s.thread u).pc)
    (ht : ∀ i, i = (s.thread t).client ∨ i = (s.thread t).server →
      (s'.sock i).closed = true ∨ pc.WillClose i)
    (hs : ∀ u < s.threads, Closing s u) : ∀ u < s'.threads, Closing s' u := by
  intro u hu
  rw [hsame.threads] at hu
  by_cases hut : u = t
  · subst hut
    intro i hi
    rw [hsame.client, hsame.server] at hi
    rw [hpc, if_pos rfl]
    exact ht i hi
  · exact h.closing_of_pc hwired hu (hsame.client u) (hsame.server u) (by rw [hpc, if_neg hut])
      (hs u hu)

/-- A call of `killp`: either it goes on, or the condition says that nothing is
left to close. -/
theorem closing_call {s s₁ : State} {t : Nat} {c : Call} {calls : List Call} {raises : Bool}
    (hpc : (s.thread t).pc = .killp (c :: calls)) (hrun : c.run s raises = some s₁)
    (hraises : raisesWhenClosed s (.worker t (callOutcome raises)) = true) (hs : Closing s t)
    {i : Nat} (hi : i = (s.thread t).client ∨ i = (s.thread t).server) :
    (s₁.sock i).closed = true ∨
      (if raises then Pc.returned else killpPc calls).WillClose i := by
  obtain ⟨x, rfl, -, -, hkeep, hclose⟩ := Call.run_eq hrun
  rcases hs i hi with hclosed | hleft
  · exact .inl (setSocket_closed hkeep hclosed)
  rw [hpc] at hleft
  rcases List.mem_cons.1 hleft with rfl | hmem
  · left
    simpa [Call.target] using hclose rfl
  · cases raises with
    | false => exact .inr (willClose_killpPc hmem)
    | true =>
      rw [callOutcome, if_pos rfl, raisesWhenClosed, hpc] at hraises
      exact .inl (setSocket_closed hkeep (List.all_eq_true.1 hraises _ hmem))

theorem Effect.closing {s s' : State} {a : Action} (h : Effect s a s') (hwired : Wired s)
    (hraises : raisesWhenClosed s a = true) (hs : ∀ t < s.threads, Closing s t) :
    ∀ t < s'.threads, Closing s' t := by
  have hframe := @Effect.closing_of_pc _ _ _ h hwired
  have hmove := @Effect.closing_setPc _ _ _ h hwired
  cases h with
  | @silent t o pc pc' ht hpc hsilent =>
    exact hmove (.setPc ..) (fun u => State.setPc_pc s t u pc')
      (fun i hi => .inr (hsilent.willClose hi)) hs
  | @receive t b ht hpc =>
    exact hmove (.setSocket_setPc ..) (fun u => State.setPc_pc _ t u (.read b))
      (fun i hi => .inr trivial) hs
  | @write t b tmp ht hpc =>
    exact hmove (.setCounter_setPc ..) (fun u => State.setPc_pc _ t u (.send b))
      (fun i hi => .inr trivial) hs
  | @sent t b n ht hpc hpos hle =>
    exact hmove (.setSocket_setPc ..) (fun u => State.setPc_pc _ t u .loop)
      (fun i hi => .inr trivial) hs
  | @call t c calls s₁ raises ht hpc hrun =>
    have hcall := @closing_call _ _ _ _ _ _ hpc hrun hraises (hs t ht)
    obtain ⟨x, rfl, -⟩ := Call.run_eq hrun
    exact hmove (.setSocket_setPc ..) (fun u => State.setPc_pc _ t u _) (fun i hi => hcall hi) hs
  | idle | handler | accept | socket | connect =>
    exact fun u hu => hframe hu rfl rfl rfl (hs u hu)
  | startT2 | startT1 =>
    intro u hu
    rcases Nat.lt_succ_iff_lt_or_eq.1 hu with hu | rfl
    · have hne := Nat.ne_of_lt hu
      exact hframe hu (by simp [hne]) (by simp [hne]) (by simp [hne]) (hs u hu)
    · intro i _
      right
      simp [Pc.WillClose]
  | mainCall raises _ hrun =>
    obtain ⟨x, rfl, -⟩ := Call.run_eq hrun
    exact fun u hu => hframe hu rfl rfl rfl (hs u hu)

theorem reachableVia_closing {s : State}
    (hs : proxy.ReachableVia (fun s a => raisesWhenClosed s a) s) :
    ∀ t < s.threads, Closing s t := by
  refine hs.invariant (I := fun s => ∀ t < s.threads, Closing s t) ?_ ?_
  · exact fun t ht => absurd ht (Nat.not_lt_zero t)
  · exact fun hs hraises hstep hclosing =>
      (step_effect hstep).closing (reachable_wired hs.reachable) hraises hclosing

theorem tornDown_of_closing {s : State} (hs : ∀ t < s.threads, Closing s t) : TornDown s := by
  intro t ht hreturned
  have hclosed : ∀ i, i = (s.thread t).client ∨ i = (s.thread t).server →
      (s.sock i).closed = true := by
    intro i hi
    have h := hs t ht i hi
    rw [hreturned] at h
    exact h.resolve_right id
  exact ⟨hclosed _ (.inl rfl), hclosed _ (.inr rfl)⟩

/-- A call of `recv` on a closed socket raises at once. -/
theorem neverWaits_of_tornDown {s : State} (hs : TornDown s) : NeverWaits s := by
  intro t ht hreturned u hu hclient hpc o s' hstep
  have hclosed : (s.sock (s.thread u).client).closed = true := by
    rcases hclient with h | h
    · rw [h]
      exact (hs t ht hreturned).1
    · rw [h]
      exact (hs t ht hreturned).2
  change (if u < s.threads then workerStep s u o else none) = some s' at hstep
  rw [if_pos hu] at hstep
  cases o with
  | ok =>
    obtain rfl : s.setPc u (killpPc (killp (s.thread u).client (s.thread u).server)) = s' := by
      simpa [workerStep, hpc, hclosed] using hstep
    simp [killpPc, killp]
  | _ => simp [workerStep, hpc] at hstep

/-! ## The condition is exact -/

/-- The calls that a worker has left are the last ones of its `killp`. -/
def CallsLeft (s : State) (t : Nat) : Prop :=
  ∀ calls, (s.thread t).pc = .killp calls →
    calls <:+ killp (s.thread t).client (s.thread t).server

theorem Silent.not_killp {s : State} {w : Worker} {pc pc' : Pc} {o : Outcome}
    (h : Silent s w pc o pc') (calls : List Call) : pc ≠ .killp calls := by
  cases h <;> simp

theorem Silent.calls_eq {s : State} {w : Worker} {pc pc' : Pc} {o : Outcome}
    (h : Silent s w pc o pc') {calls : List Call} (hpc : pc' = .killp calls) :
    calls = killp w.client w.server := by
  cases h <;> cases hpc <;> rfl

theorem killpPc_eq_killp {calls calls' : List Call} (h : killpPc calls = .killp calls') :
    calls' = calls := by
  cases calls with
  | nil => cases h
  | cons c calls =>
    cases h
    rfl

/-- A step of the worker `t`. -/
theorem callsLeft_setPc {s s' : State} (hsame : SameHolders s s') {t : Nat} {pc : Pc}
    (hpc : ∀ u, (s'.thread u).pc = if u = t then pc else (s.thread u).pc)
    (ht : ∀ calls, pc = .killp calls → calls <:+ killp (s.thread t).client (s.thread t).server)
    (hs : ∀ u < s.threads, CallsLeft s u) : ∀ u < s'.threads, CallsLeft s' u := by
  intro u hu calls hcalls
  rw [hsame.threads] at hu
  rw [hsame.client, hsame.server]
  rw [hpc] at hcalls
  split_ifs at hcalls with h
  · subst h
    exact ht calls hcalls
  · exact hs u hu calls hcalls

theorem Effect.callsLeft {s s' : State} {a : Action} (h : Effect s a s')
    (hs : ∀ t < s.threads, CallsLeft s t) : ∀ t < s'.threads, CallsLeft s' t := by
  cases h with
  | @silent t o pc pc' ht hpc hsilent =>
    exact callsLeft_setPc (.setPc ..) (fun u => State.setPc_pc s t u pc')
      (fun _ h => hsilent.calls_eq h ▸ List.suffix_refl _) hs
  | @receive t b ht hpc =>
    exact callsLeft_setPc (.setSocket_setPc ..) (fun u => State.setPc_pc _ t u (.read b)) nofun hs
  | @write t b tmp ht hpc =>
    exact callsLeft_setPc (.setCounter_setPc ..) (fun u => State.setPc_pc _ t u (.send b)) nofun hs
  | @sent t b n ht hpc hpos hle =>
    exact callsLeft_setPc (.setSocket_setPc ..) (fun u => State.setPc_pc _ t u .loop) nofun hs
  | @call t c calls s₁ raises ht hpc hrun =>
    obtain ⟨x, rfl, -⟩ := Call.run_eq hrun
    refine callsLeft_setPc (.setSocket_setPc ..) (fun u => State.setPc_pc _ t u _)
      (fun calls' h => ?_) hs
    split_ifs at h
    rw [killpPc_eq_killp h]
    exact (List.suffix_cons c calls).trans (hs t ht _ hpc)
  | idle | handler | accept | socket | connect => exact hs
  | startT2 | startT1 =>
    intro u hu calls hcalls
    rcases Nat.lt_succ_iff_lt_or_eq.1 hu with hu | rfl
    · have hne := Nat.ne_of_lt hu
      simp only [State.setMain_thread, State.startThread_thread, hne, if_false] at hcalls ⊢
      exact hs u hu calls hcalls
    · simp at hcalls
  | mainCall raises _ hrun =>
    obtain ⟨x, rfl, -⟩ := Call.run_eq hrun
    exact hs

theorem reachable_callsLeft {s : State} (hs : proxy.Reachable s) :
    ∀ t < s.threads, CallsLeft s t := by
  refine hs.invariant (I := fun s => ∀ t < s.threads, CallsLeft s t) ?_ ?_
  · exact fun t ht => absurd ht (Nat.not_lt_zero t)
  · exact fun _ _ hstep hcalls => (step_effect hstep).callsLeft hcalls

/-- The sockets that the calls after `c` close are those of the worker, and none
of them is the one that `c` closes. -/
theorem CallsLeft.close_mem {s : State} {t : Nat} (hs : CallsLeft s t)
    (hne : (s.thread t).client ≠ (s.thread t).server) {c : Call} {calls : List Call}
    (hpc : (s.thread t).pc = .killp (c :: calls)) {i : Nat} (hi : .close i ∈ calls) :
    (i = (s.thread t).client ∨ i = (s.thread t).server) ∧ c ≠ .close i := by
  have hsuffix := hs _ hpc
  have hnodup : (killp (s.thread t).client (s.thread t).server).Nodup := by
    simp [killp, hne]
  constructor
  · simpa [killp] using hsuffix.subset (List.mem_cons_of_mem c hi)
  · rintro rfl
    exact (List.nodup_cons.1 (hnodup.sublist hsuffix.sublist)).1 hi

/-- A call that raises leaves a socket open that it does not close. -/
theorem Call.run_raises_open {s s' : State} {c : Call} (h : c.run s true = some s') {i : Nat}
    (hc : c ≠ .close i) (hi : (s.sock i).closed = false) : (s'.sock i).closed = false := by
  cases c with
  | shutdown j =>
    cases h
    exact hi
  | close j =>
    have hij : i ≠ j := fun h => hc (h ▸ rfl)
    simp only [Call.run] at h
    split_ifs at h
    cases h
    simpa [hij] using hi

/-- After a step that does not meet the condition a worker has returned with a
socket open. -/
theorem not_tornDown_of_raises {s s' : State} {a : Action} (hs : proxy.Reachable s)
    (hraises : raisesWhenClosed s a = false) (hstep : proxy.step s a = some s') :
    ¬ TornDown s' := by
  have hwired := reachable_wired hs
  have hcalls := reachable_callsLeft hs
  have h := step_effect hstep
  cases h with
  | @call t c calls s₁ raises ht hpc hrun =>
    cases raises with
    | false => simp [callOutcome, raisesWhenClosed] at hraises
    | true =>
      rw [callOutcome, if_pos rfl, raisesWhenClosed, hpc] at hraises
      obtain ⟨d, hd, hopen⟩ := List.all_eq_false.1 hraises
      cases d with
      | shutdown j => simp at hopen
      | close i =>
        obtain ⟨hi, hne⟩ := (hcalls t ht).close_mem (hwired.client_ne_server t ht) hpc hd
        have hstill := Call.run_raises_open hrun hne (by simpa using hopen)
        intro htorn
        have hclosed : (s₁.sock (s.thread t).client).closed = true ∧
            (s₁.sock (s.thread t).server).closed = true := by
          obtain ⟨x, rfl, -⟩ := Call.run_eq hrun
          simpa using htorn t ht (by simp)
        rcases hi with rfl | rfl
        · simp [hclosed.1] at hstill
        · simp [hclosed.2] at hstill
  | silent ht hpc hmove => cases hmove <;> simp [raisesWhenClosed, hpc] at hraises
  | @idle a ha => cases a <;> simp_all [raisesWhenClosed, Action.isWorker]
  | handler | mainCall | accept | socket | connect | startT2 | startT1 =>
    simp [raisesWhenClosed] at hraises
  | receive | write | sent => simp [raisesWhenClosed] at hraises

/-! ## The end of a connection -/

/-- Under the condition a connection ends as a whole: a worker that has returned
leaves both sockets closed, and no worker of the connection waits on them again.
Whatever came before, a step that does not meet the condition leaves a worker
returned with a socket open. -/
theorem teardown_complete (s : State) :
    (proxy.ReachableVia (fun s a => raisesWhenClosed s a) s → TornDown s ∧ NeverWaits s) ∧
    ∀ a s', proxy.Reachable s → raisesWhenClosed s a = false → proxy.step s a = some s' →
      ¬ TornDown s' := by
  constructor
  · intro hs
    have htorn := tornDown_of_closing (reachableVia_closing hs)
    exact ⟨htorn, neverWaits_of_tornDown htorn⟩
  · exact fun a s' => not_tornDown_of_raises

/-- The end of the stream, and four calls that go well. -/
theorem teardown_complete_eof :
    ∃ s, proxy.ReachableVia (fun s a => raisesWhenClosed s a) s ∧ (s.thread 1).pc = .returned ∧
      TornDown s ∧ NeverWaits s := by
  have hrun : (proxy.execVia raisesWhenClosed (connectRun ++
      [.ok, .ok, .eof, .ok, .ok, .ok, .ok].map (.worker 1)) proxy.init).map
        (fun s => (s.thread 1).pc) = some .returned := by
    decide +kernel
  obtain ⟨s, hexec, hreturned⟩ := Option.map_eq_some_iff.1 hrun
  have hreach := System.reachableVia_exec hexec
  exact ⟨s, hreach, hreturned, (teardown_complete s).1 hreach⟩

/-- A peer that has reset the connection: `recv` raises, then the first
`shutdown` raises, and the other worker stays blocked on an open socket. -/
theorem killp_leaves_open :
    ∃ s, proxy.Reachable s ∧ (s.thread 1).pc = .returned ∧ (s.thread 0).pc = .receiving ∧
      (s.sock 0).closed = false ∧ (s.sock 1).closed = false ∧ ¬ TornDown s := by
  have hrun : (proxy.execVia (fun _ _ => true) (connectRun ++ [.ok, .ok].map (.worker 0) ++
      [.ok, .ok, .raises, .raises].map (.worker 1)) proxy.init).map
        (fun s => ((s.threads, (s.thread 1).client), ((s.thread 1).pc, (s.thread 0).pc),
          (s.sock 0).closed, (s.sock 1).closed)) =
        some ((2, 0), (.returned, .receiving), false, false) := by
    decide +kernel
  obtain ⟨s, hexec, hs⟩ := Option.map_eq_some_iff.1 hrun
  simp only [Prod.mk.injEq] at hs
  obtain ⟨⟨hthreads, hclient⟩, ⟨hreturned, hblocked⟩, hk, hv⟩ := hs
  refine ⟨s, (System.reachableVia_exec hexec).reachable, hreturned, hblocked, hk, hv, fun h => ?_⟩
  have hclosed := (h 1 (by omega) hreturned).1
  simp [hclient, hk] at hclosed

end Cheesecloth.Proxy
