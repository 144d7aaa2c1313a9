import Mathlib.Algebra.BigOperators.Group.Finset.Piecewise
import Cheesecloth.Proxy.Streams

/-!
# The byte counts of the relay

`inthandler` prints `c2s`, `s2c` and their sum as the bytes that crossed the relay.  A
worker adds the length of a chunk before it sends the chunk, and the addition
is not atomic.  So the counts are off after a send that raises or is cut short,
and after two workers of one direction have read the counter before either
wrote it (`counters_inexact`).

* `countsExactly` excludes these three events.
* `Counted` is the invariant under it: a counter is the sum of what the
  workers of its direction have had accepted and of the chunks that they have
  counted but not yet sent.
* `counters_exact`: hence the counters are the bytes that crossed the relay
  whenever no worker holds a chunk, in every run under the condition.  `inthandler`
  reads them one after the other, so its figures are exact if no worker holds a
  chunk from its first read to its last.  Without that they need not fit together
  (`inthandler_torn`).
-/

namespace Cheesecloth.Proxy

open CodeLib

/-! ## What should be counted -/

/-- The bytes that have been accepted from the workers of a direction. -/
def crossed (s : State) (d : Direction) : Nat :=
  ∑ t ∈ Finset.range s.threads,
    if (s.thread t).direction = d then (s.accepted t).length else 0

/-- No worker is between its `recv` and the end of its `send`. -/
def Quiet (s : State) : Prop := ∀ t < s.threads, s.inFlight t = []

instance (s : State) : Decidable (Quiet s) :=
  inferInstanceAs (Decidable (∀ t < s.threads, s.inFlight t = []))

/-- In a quiet state the counters are the bytes that crossed the relay. -/
def CountsExact (s : State) : Prop :=
  Quiet s → s.c2s = crossed s .client2server ∧ s.s2c = crossed s .server2client

/-- A counter is written only while it has the value that was read, and every
send is accepted as a whole. -/
def countsExactly (s : State) : Action → Bool
  | .worker t o =>
    match (s.thread t).pc, o with
    | .write _ tmp, _ => s.counter (s.thread t).direction == tmp
    | .send _, _ => !((s.sock (s.thread t).server).closed || (s.sock (s.thread t).server).shut)
    | .sending b, .sent n => n == b.bytes.length
    | .sending _, .raises => false
    | _, _ => true
  | _ => true

/-- A figure is the number of bytes that it should be. -/
def Figure.Exact (s : State) : Figure → Prop
  | .clientToServer n => n = crossed s .client2server
  | .serverToClient n => n = crossed s .server2client
  | .total n => n = crossed s .client2server + crossed s .server2client

/-- The condition, in a quiet state. -/
def quietly (s : State) (a : Action) : Bool := countsExactly s a && decide (Quiet s)

/-- As long as the relay stays quiet, `inthandler` prints the bytes that crossed it,
unless it has read one counter of its sum before. -/
def PrintsExact (s : State) : Prop :=
  ¬ s.main.Summing → ∀ s', Relation.ReflTransGen (proxy.StepVia fun s a => quietly s a) s s' →
    Quiet s' → ∃ figures, s'.out = s.out ++ figures ∧ ∀ f ∈ figures, f.Exact s'

/-! ## The invariant -/

/-- What a worker has counted but not yet sent. -/
def Pc.counted : Pc → Nat
  | .send b | .sending b => b.bytes.length
  | _ => 0

/-- What the worker `t` has added to the counter of `d`. -/
def contribution (s : State) (d : Direction) (t : Nat) : Nat :=
  if (s.thread t).direction = d then (s.accepted t).length + (s.thread t).pc.counted else 0

/-- A counter is the sum of what its workers have added. -/
def Counted (s : State) : Prop :=
  ∀ d, s.counter d = ∑ t ∈ Finset.range s.threads, contribution s d t

theorem Counted.of_same {s s' : State} (hs : Counted s) (hthreads : s'.threads = s.threads)
    (hcounter : ∀ d, s'.counter d = s.counter d)
    (hsame : ∀ u < s.threads, ∀ d, contribution s' d u = contribution s d u) : Counted s' := by
  intro d
  rw [hcounter, hs d, hthreads]
  exact Finset.sum_congr rfl fun u hu => (hsame u (Finset.mem_range.1 hu) d).symm

theorem contribution_eq {s s' : State} {u : Nat}
    (hdirection : (s'.thread u).direction = (s.thread u).direction)
    (haccepted : s'.accepted u = s.accepted u)
    (hcounted : (s'.thread u).pc.counted = (s.thread u).pc.counted) (d : Direction) :
    contribution s' d u = contribution s d u := by
  rw [contribution, hdirection, haccepted, hcounted, contribution]

/-- One summand more by `k` is the sum more by `k`. -/
theorem sum_range_add {n t k : Nat} {f g : Nat → Nat} (ht : t < n)
    (hother : ∀ u < n, u ≠ t → g u = f u) (hadd : g t = f t + k) :
    ∑ u ∈ Finset.range n, g u = ∑ u ∈ Finset.range n, f u + k := by
  have hsplit : ∀ u ∈ Finset.range n, g u = f u + if u = t then k else 0 := by
    intro u hu
    split_ifs with h
    · rw [h, hadd]
    · rw [hother u (Finset.mem_range.1 hu) h, Nat.add_zero]
  rw [Finset.sum_congr rfl hsplit, Finset.sum_add_distrib, Finset.sum_ite_eq',
    if_pos (Finset.mem_range.2 ht)]

theorem Flow.accepted_eq {s s' : State} {a : Action} (h : Flow s a s') {u : Nat}
    (hu : u < s.threads) (hne : ∀ n, a ≠ .worker u (.sent n)) : s'.accepted u = s.accepted u := by
  cases h with
  | same _ hsame => exact (hsame u hu).accepted
  | receive t b _ _ _ haccepted _ _ _ hsame =>
    by_cases h : u = t
    · rw [h, haccepted]
    · exact (hsame u hu h).accepted
  | sent t b n haction _ _ _ _ _ _ _ _ hsame =>
    by_cases h : u = t
    · subst h
      exact absurd haction (hne n)
    · exact (hsame u hu h).accepted
  | start _ _ _ _ hsame => exact (hsame u hu).accepted

theorem Silent.counted_eq {s : State} {t : Nat} {pc pc' : Pc} {o : Outcome}
    (hpc : (s.thread t).pc = pc) (h : Silent s (s.thread t) pc o pc')
    (hexact : countsExactly s (.worker t o) = true) : pc'.counted = pc.counted := by
  cases h with
  | sendClosed b h => simp [countsExactly, hpc, h] at hexact
  | sendRaises b => simp [countsExactly, hpc] at hexact
  | _ => rfl

theorem counter_setCounter_setPc (s : State) (d d' : Direction) (n t : Nat) (pc : Pc) :
    ((s.setCounter d n).setPc t pc).counter d' = if d = d' then n else s.counter d' := by
  cases d <;> cases d' <;> rfl

theorem Flow.accepted_new {s s' : State} {a : Action} (h : Flow s a s')
    (hthreads : s'.threads = s.threads + 1) : s'.accepted s.threads = [] := by
  cases h with
  | start _ _ haccepted => exact haccepted
  | same h | receive _ _ _ h | sent _ _ _ _ _ h => omega

/-- A new worker has added nothing. -/
theorem Counted.startThread {s : State} {a : Action} {i j : Nat} {d : Direction} {pc : MainPc}
    (hs : Counted s) (hflow : Flow s a ((s.startThread i j d).setMain pc))
    (ha : ∀ t n, a ≠ .worker t (.sent n)) : Counted ((s.startThread i j d).setMain pc) := by
  intro d'
  have hnew : contribution ((s.startThread i j d).setMain pc) d' s.threads = 0 := by
    rw [contribution, hflow.accepted_new rfl]
    simp [Pc.counted]
  have hold : ∀ u ∈ Finset.range s.threads,
      contribution ((s.startThread i j d).setMain pc) d' u = contribution s d' u := by
    intro u hu
    have hlt := Finset.mem_range.1 hu
    have hne := Nat.ne_of_lt hlt
    exact contribution_eq (by simp [hne]) (hflow.accepted_eq hlt (ha u)) (by simp [hne]) d'
  have hcounter : ((s.startThread i j d).setMain pc).counter d' = s.counter d' := by
    cases d' <;> rfl
  rw [hcounter, hs d']
  change _ = ∑ t ∈ Finset.range (s.threads + 1), _
  rw [Finset.sum_range_succ, hnew, Nat.add_zero, Finset.sum_congr rfl hold]

/-- A step of the worker `t` that neither writes a counter nor ends a send. -/
theorem Counted.setPc {s s' : State} {t : Nat} {pc : Pc} (hs : Counted s)
    (hsame : SameHolders s s') (hcounter : ∀ d, s'.counter d = s.counter d)
    (haccepted : ∀ u < s.threads, s'.accepted u = s.accepted u)
    (hpc : ∀ u, (s'.thread u).pc = if u = t then pc else (s.thread u).pc)
    (hcounted : pc.counted = (s.thread t).pc.counted) : Counted s' := by
  refine hs.of_same hsame.threads hcounter fun u hu d =>
    contribution_eq (hsame.direction u) (haccepted u hu) ?_ d
  rw [hpc]
  split_ifs with h
  · rw [h, hcounted]
  · rfl

theorem Effect.counted {s s' : State} {a : Action} (h : Effect s a s') (hflow : Flow s a s')
    (hexact : countsExactly s a = true) (hs : Counted s) : Counted s' := by
  have haccepted := @Flow.accepted_eq _ _ _ hflow
  cases h with
  | @silent t o pc pc' ht hpc hmove =>
    refine hs.setPc (SameHolders.setPc ..) (fun d => by cases d <;> rfl)
      (fun u hu => by simp [State.accepted]) (fun u => State.setPc_pc s t u pc') ?_
    rw [hpc]
    exact hmove.counted_eq hpc hexact
  | @receive t b ht hpc =>
    refine hs.setPc (SameHolders.setSocket_setPc ..) (fun d => by cases d <;> rfl)
      (fun u hu => haccepted hu (by simp)) (fun u => State.setPc_pc _ t u (.read b)) ?_
    rw [hpc]
    rfl
  | @write t b tmp ht hpc =>
    have htmp : s.counter (s.thread t).direction = tmp := by
      simpa [countsExactly, hpc] using hexact
    intro d
    have hsum := sum_range_add (k := if (s.thread t).direction = d then b.bytes.length else 0)
      (f := contribution s d)
      (g := contribution ((s.setCounter (s.thread t).direction (tmp + b.bytes.length)).setPc t
        (.send b)) d) ht (fun u hu hne => contribution_eq (by simp) (haccepted hu (by simp))
          (by simp [hne]) d) ?_
    · rw [State.setPc_threads, State.setCounter_threads, hsum, ← hs d, counter_setCounter_setPc]
      split_ifs with h
      · rw [← h, htmp]
      · rfl
    · simp only [contribution, State.setPc_direction, State.setPc_pc, State.setCounter_thread,
        if_true, hpc, Pc.counted, haccepted ht (by simp)]
      split_ifs <;> omega
  | @sent t b n ht hpc hpos hle =>
    have hn : n = b.bytes.length := by simpa [countsExactly, hpc] using hexact
    refine hs.of_same rfl (fun d => by cases d <;> rfl) fun u hu d => ?_
    by_cases h : u = t
    · subst h
      simp only [contribution, State.accepted, State.setPc_direction, State.setPc_server,
        State.setPc_pc, State.setPc_sock, State.setSocket_sock, State.setSocket_thread, if_true,
        Socket.accept_tx, List.length_append, List.length_take, hpc, Pc.counted]
      split_ifs <;> omega
    · exact contribution_eq (by simp) (haccepted hu (by simp [Ne.symm h])) (by simp [h]) d
  | @call t c calls s₁ raises ht hpc hrun =>
    obtain ⟨x, rfl, -⟩ := Call.run_eq hrun
    refine hs.setPc (SameHolders.setSocket_setPc ..) (fun d => by cases d <;> rfl)
      (fun u hu => haccepted hu (by cases raises <;> simp [callOutcome]))
      (fun u => State.setPc_pc _ t u _) ?_
    rw [hpc]
    split_ifs
    · rfl
    · cases calls <;> rfl
  | idle | handler => exact hs
  | accept =>
    exact hs.of_same rfl (fun d => by cases d <;> rfl) fun u hu =>
      contribution_eq rfl (haccepted hu (by simp)) rfl
  | socket =>
    exact hs.of_same rfl (fun d => by cases d <;> rfl) fun u hu =>
      contribution_eq rfl (haccepted hu (by simp)) rfl
  | connect => exact hs
  | startT2 hmain => exact hs.startThread hflow (by simp)
  | startT1 hmain => exact hs.startThread hflow (by simp)
  | mainCall raises _ hrun =>
    obtain ⟨x, rfl, -⟩ := Call.run_eq hrun
    exact hs.of_same rfl (fun d => by cases d <;> rfl) fun u hu =>
      contribution_eq rfl (haccepted hu (by simp)) rfl

theorem Pc.counted_le (pc : Pc) : pc.counted ≤ pc.inFlight.length := by
  cases pc <;> simp [Pc.counted, Pc.inFlight]

theorem Counted.counter_eq_crossed {s : State} (hs : Counted s) (hquiet : Quiet s)
    (d : Direction) : s.counter d = crossed s d := by
  rw [hs d]
  refine Finset.sum_congr rfl fun t ht => ?_
  have hcounted := (s.thread t).pc.counted_le
  rw [← State.inFlight, hquiet t (Finset.mem_range.1 ht), List.length_nil] at hcounted
  rw [contribution, Nat.le_zero.1 hcounted, Nat.add_zero]

theorem reachableVia_counted {s : State}
    (hs : proxy.ReachableVia (fun s a => countsExactly s a) s) : Counted s :=
  hs.invariant (I := Counted) (fun d => by cases d <;> rfl) fun hs hexact hstep hcounted =>
    (step_effect hstep).counted (step_flow hs.reachable hstep) hexact hcounted

theorem countsExact_of_reachableVia {s : State}
    (hs : proxy.ReachableVia (fun s a => countsExactly s a) s) : CountsExact s := fun hquiet =>
  ⟨(reachableVia_counted hs).counter_eq_crossed hquiet .client2server,
    (reachableVia_counted hs).counter_eq_crossed hquiet .server2client⟩

/-! ## The figures -/

theorem Quiet.not_write {s : State} (hs : Quiet s) {t tmp : Nat} {b : Chunk} (ht : t < s.threads) :
    (s.thread t).pc ≠ .write b tmp := by
  intro hpc
  have hempty := hs t ht
  rw [State.inFlight, hpc] at hempty
  exact b.ne_nil hempty

/-- Only a worker that holds a chunk writes a counter. -/
theorem Effect.counter_eq {s s' : State} {a : Action} (h : Effect s a s') (hquiet : Quiet s)
    (d : Direction) : s'.counter d = s.counter d := by
  cases h with
  | write ht hpc => exact absurd hpc (hquiet.not_write ht)
  | call raises _ _ hrun =>
    obtain ⟨x, rfl, -⟩ := Call.run_eq hrun
    cases d <;> rfl
  | mainCall raises _ hrun =>
    obtain ⟨x, rfl, -⟩ := Call.run_eq hrun
    cases d <;> rfl
  | _ => cases d <;> rfl

/-- What `inthandler` has read of its sum is the count. -/
def SumExact (s : State) : Prop := ∀ tmp pc, s.main = .handler (.sum tmp) pc → tmp = s.c2s

theorem sumExact_of_not_summing {s : State} (h : ¬ s.main.Summing) : SumExact s := by
  intro tmp pc hmain
  simp [hmain, MainPc.Summing] at h

/-- The figures that a step adds are exact. -/
def AddsExact (s s' : State) : Prop :=
  SumExact s' ∧ ∃ figures, s'.out = s.out ++ figures ∧ ∀ f ∈ figures, f.Exact s

theorem addsExact_of_main {s s' : State} (hsum : SumExact s) (hout : s'.out = s.out)
    (hmain : s'.main = s.main) (hc2s : s'.c2s = s.c2s) : AddsExact s s' := by
  refine ⟨fun tmp pc h => ?_, [], by simpa using hout, by simp⟩
  rw [hc2s]
  exact hsum tmp pc (hmain ▸ h)

theorem addsExact_of_not_summing {s s' : State} (hout : s'.out = s.out)
    (hmain : ¬ s'.main.Summing) : AddsExact s s' :=
  ⟨sumExact_of_not_summing hmain, [], by simpa using hout, by simp⟩

theorem addsExact_inthandler {s : State} {line : Line} {pc : MainPc} (hquiet : Quiet s)
    (hexact : CountsExact s) (hsum : SumExact s) (hmain : s.main = .handler line pc) :
    AddsExact s (inthandler s pc line) := by
  obtain ⟨hc2s, hs2c⟩ := hexact hquiet
  cases line with
  | c2s => exact ⟨sumExact_of_not_summing id, _, rfl, by simp [Figure.Exact, hc2s]⟩
  | s2c => exact ⟨sumExact_of_not_summing id, _, rfl, by simp [Figure.Exact, hs2c]⟩
  | total =>
    refine ⟨fun tmp pc h => ?_, [], (List.append_nil _).symm, by simp⟩
    cases h
    rfl
  | sum tmp =>
    have htmp := hsum tmp pc hmain
    exact ⟨sumExact_of_not_summing id, _, rfl, by simp [Figure.Exact, htmp, hc2s, hs2c]⟩
  | flush => exact addsExact_of_not_summing rfl (raisePc_idle _ _).2

theorem Effect.addsExact {s s' : State} {a : Action} (h : Effect s a s') (hquiet : Quiet s)
    (hexact : CountsExact s) (hsum : SumExact s) : AddsExact s s' := by
  cases h with
  | silent | receive | sent => exact addsExact_of_main hsum rfl rfl rfl
  | write ht hpc => exact absurd hpc (hquiet.not_write ht)
  | call raises _ _ hrun =>
    obtain ⟨x, rfl, -⟩ := Call.run_eq hrun
    exact addsExact_of_main hsum rfl rfl rfl
  | idle _ pc ws hpc _ =>
    rcases hpc with rfl | hpc
    · exact addsExact_of_main hsum rfl rfl rfl
    · exact addsExact_of_not_summing rfl hpc.2
  | handler hmain =>
    rw [← inthandler_eq]
    exact addsExact_inthandler hquiet hexact hsum hmain
  | accept | socket | connect | startT2 | startT1 => exact addsExact_of_not_summing rfl id
  | mainCall raises _ hrun =>
    obtain ⟨x, rfl, -⟩ := Call.run_eq hrun
    refine addsExact_of_not_summing rfl ?_
    rw [State.setMain_main]
    split_ifs <;> exact id

theorem Figure.Exact.congr {s s' : State} (h : ∀ d, crossed s' d = crossed s d) {f : Figure}
    (hf : f.Exact s) : f.Exact s' := by
  cases f <;> simpa [Figure.Exact, h] using hf

theorem printsExact_of_reachableVia {s : State}
    (hs : proxy.ReachableVia (fun s a => countsExactly s a) s) : PrintsExact s := by
  intro hsumming s' hrun
  have hrun : proxy.ReachableVia (fun s a => countsExactly s a) s' ∧ SumExact s' ∧ (Quiet s' →
      ∃ figures, s'.out = s.out ++ figures ∧ ∀ f ∈ figures, f.Exact s') := by
    induction hrun with
    | refl => exact ⟨hs, sumExact_of_not_summing hsumming, fun _ => ⟨[], by simp, by simp⟩⟩
    | @tail s₁ s₂ _ hstep ih =>
      obtain ⟨hs₁, hsum₁, hprints⟩ := ih
      obtain ⟨a, hC, hstep⟩ := hstep
      obtain ⟨hexact, hquiet₁⟩ := Bool.and_eq_true_iff.1 hC
      have hquiet₁ := of_decide_eq_true hquiet₁
      have hs₂ := hs₁.tail hexact hstep
      have heffect := step_effect hstep
      obtain ⟨hsum₂, more, hout₂, hmore⟩ :=
        heffect.addsExact hquiet₁ (countsExact_of_reachableVia hs₁) hsum₁
      refine ⟨hs₂, hsum₂, fun hquiet₂ => ?_⟩
      -- In quiet states the counters say what has crossed, and they stay.
      have hcrossed : ∀ d, crossed s₂ d = crossed s₁ d := fun d => by
        rw [← (reachableVia_counted hs₂).counter_eq_crossed hquiet₂,
          ← (reachableVia_counted hs₁).counter_eq_crossed hquiet₁, heffect.counter_eq hquiet₁]
      obtain ⟨figures, hout, hfigures⟩ := hprints hquiet₁
      refine ⟨figures ++ more, by rw [hout₂, hout, List.append_assoc], fun f hf => ?_⟩
      rcases List.mem_append.1 hf with hf | hf
      · exact (hfigures f hf).congr hcrossed
      · exact (hmore f hf).congr hcrossed
  exact hrun.2.2

/-- In every run under the condition the counters are exact in every quiet state, and
so is every figure that `inthandler` prints while the relay stays quiet. -/
theorem counters_exact {s : State} (hs : proxy.ReachableVia (fun s a => countsExactly s a) s) :
    CountsExact s ∧ PrintsExact s :=
  ⟨countsExact_of_reachableVia hs, printsExact_of_reachableVia hs⟩

/-- Two connections, with chunks in both directions, and then an interrupt. -/
theorem counters_exact_two_connections :
    ∃ s s', proxy.ReachableVia (fun s a => countsExactly s a) s ∧ Quiet s ∧ s.c2s = 3 ∧
      s.s2c = 1 ∧ CountsExact s ∧
      Relation.ReflTransGen (proxy.StepVia fun s a => quietly s a) s s' ∧
      s'.out = [.clientToServer 3, .serverToClient 1, .total 4] ∧ ∀ f ∈ s'.out, f.Exact s' := by
  have hrun : ((proxy.execVia countsExactly (connectRun ++ connectRun.tail ++
      copyRun 1 ⟨[1, 2], by decide, by decide⟩ 2 ++ copyRun 0 ⟨[3], by decide, by decide⟩ 1 ++
      copyRun 3 ⟨[4], by decide, by decide⟩ 1) proxy.init).bind fun s =>
        (proxy.execVia quietly (.sigint :: List.replicate 4 (.main .ok)) s).map fun s' =>
          (decide (Quiet s ∧ s.main = .accept ∧ s.out = [] ∧ Quiet s'), s.c2s, s.s2c, s'.out)) =
        some (true, 3, 1, [.clientToServer 3, .serverToClient 1, .total 4]) := by
    decide +kernel
  obtain ⟨s, hexec, hs⟩ := Option.bind_eq_some_iff.1 hrun
  obtain ⟨s', hexec', hs⟩ := Option.map_eq_some_iff.1 hs
  simp only [Prod.mk.injEq, decide_eq_true_eq] at hs
  obtain ⟨⟨hquiet, hmain, hout, hquiet'⟩, hc2s, hs2c, hout'⟩ := hs
  have hreach := System.reachableVia_exec hexec
  have hsteps := System.steps_of_execVia hexec'
  have hexact := counters_exact hreach
  obtain ⟨figures, hfigures, hprinted⟩ :=
    hexact.2 (by simp [hmain, MainPc.Summing]) s' hsteps hquiet'
  rw [hout, List.nil_append] at hfigures
  exact ⟨s, s', hreach, hquiet, hc2s, hs2c, hexact.1, hsteps, hout', hfigures ▸ hprinted⟩

/-- A chunk that crosses between the `print`s is in the total only: the three reads of
`inthandler` are not one. -/
theorem inthandler_torn :
    ∃ s, proxy.ReachableVia (fun s a => countsExactly s a) s ∧ Quiet s ∧
      s.out = [.clientToServer 0, .serverToClient 0, .total 1] := by
  have hrun : (proxy.execVia countsExactly (connectRun ++ [.sigint] ++
      List.replicate 2 (.main .ok) ++ copyRun 1 ⟨[1], by decide, by decide⟩ 1 ++
      List.replicate 2 (.main .ok)) proxy.init).map (fun s => (decide (Quiet s), s.out)) =
        some (true, [.clientToServer 0, .serverToClient 0, .total 1]) := by
    decide +kernel
  obtain ⟨s, hexec, hs⟩ := Option.map_eq_some_iff.1 hrun
  simp only [Prod.mk.injEq, decide_eq_true_eq] at hs
  exact ⟨s, System.reachableVia_exec hexec, hs.1, hs.2⟩

/-! ## The three ways to miscount -/

/-- The figures of a run, if it ends in a quiet state: `c2s`, and the bytes that
it should be. -/
def figures (run : List Action) : Option (Bool × Nat × Nat) :=
  (proxy.execVia (fun _ _ => true) run proxy.init).map fun s =>
    (decide (Quiet s), s.c2s, crossed s .client2server)

theorem reachable_of_figures {run : List Action} {n m : Nat} (h : figures run = some (true, n, m)) :
    ∃ s, proxy.Reachable s ∧ Quiet s ∧ s.c2s = n ∧ crossed s .client2server = m := by
  obtain ⟨s, hexec, hs⟩ := Option.map_eq_some_iff.1 h
  simp only [Prod.mk.injEq, decide_eq_true_eq] at hs
  exact ⟨s, (System.reachableVia_exec hexec).reachable, hs.1, hs.2.1, hs.2.2⟩

/-- Two workers read the counter before either writes it; a send is cut short;
a send raises. -/
theorem counters_inexact :
    (∃ s, proxy.Reachable s ∧ Quiet s ∧ s.c2s = 1 ∧ crossed s .client2server = 2) ∧
    (∃ s, proxy.Reachable s ∧ Quiet s ∧ s.c2s = 2 ∧ crossed s .client2server = 1) ∧
    (∃ s, proxy.Reachable s ∧ Quiet s ∧ s.c2s = 1 ∧ crossed s .client2server = 0) ∧
    ¬ ∀ s, proxy.Reachable s → CountsExact s := by
  have hlost : figures (connectRun ++ connectRun.tail ++
      [.worker 1 .ok, .worker 1 .ok, .worker 1 (.data ⟨[1], by decide, by decide⟩),
       .worker 3 .ok, .worker 3 .ok, .worker 3 (.data ⟨[2], by decide, by decide⟩),
       .worker 1 .ok, .worker 3 .ok, .worker 1 .ok, .worker 3 .ok,
       .worker 1 .ok, .worker 1 (.sent 1), .worker 3 .ok, .worker 3 (.sent 1)]) =
        some (true, 1, 2) := by
    decide +kernel
  have hshort : figures (connectRun ++ copyRun 1 ⟨[1, 2], by decide, by decide⟩ 1) =
      some (true, 2, 1) := by
    decide +kernel
  have hraises : figures (connectRun ++
      [.worker 1 .ok, .worker 1 .ok, .worker 1 (.data ⟨[1], by decide, by decide⟩),
       .worker 1 .ok, .worker 1 .ok, .worker 1 .ok, .worker 1 .raises]) = some (true, 1, 0) := by
    decide +kernel
  refine ⟨reachable_of_figures hlost, reachable_of_figures hshort, reachable_of_figures hraises,
    fun h => ?_⟩
  obtain ⟨s, hs, hquiet, hc2s, hcrossed⟩ := reachable_of_figures hlost
  have hexact := (h s hs hquiet).1
  omega

end Cheesecloth.Proxy
