import Cheesecloth.CodeLib.Pipe
import Cheesecloth.Proxy.Streams

/-!
# Transparency of the relay

The relay should be a pair of pipes for each connection.  `worker` drops the
return value of `send`, so a send that accepts only a part of the chunk loses
the rest, and the next one leaves a gap (`relay_leaves_gap`).

* `sendsInOrder` is the condition under which the relay is transparent: a send
  succeeds only when all that its worker received before the chunk has been
  accepted.  A worker whose send was cut short then sends nothing more.
* `relay_simulates_pipes`: under this condition the relay simulates `pipes`,
  with one pipe for each worker.
* `relay_transparent`: hence the bytes that either socket of a connection has
  accepted are a prefix of the bytes received from the other one, in every
  state of every run.
* `reachableVia_sendsInOrder`: a run in which every successful send accepts its
  whole chunk meets the condition.
-/

namespace Cheesecloth.Proxy

open CodeLib

/-! ## What a transparent relay is -/

/-- In both directions of every connection the accepted bytes are a prefix of
the received ones. -/
def Transparent (s : State) : Prop :=
  ∀ k v, IsConnection s k v →
    (s.sock v).tx <+: (s.sock k).rx ∧ (s.sock k).tx <+: (s.sock v).rx

/-- A send succeeds only when all that its worker received before the chunk has
been accepted. -/
def sendsInOrder (s : State) : Action → Bool
  | .worker t (.sent _) =>
    (s.accepted t).length + (s.inFlight t).length == (s.received t).length
  | _ => true

/-! ## The simulation -/

/-- The worker `t` is the pipe `t`. -/
def IsPipes (s : State) (p : Nat → Pipe Byte) : Prop :=
  ∀ t, (t < s.threads → (p t).taken = s.received t ∧ (p t).output = s.accepted t) ∧
    (s.threads ≤ t → p t = Pipe.empty)

theorem SameStreams.isPipe {s s' : State} {t : Nat} {q : Pipe Byte} (h : SameStreams s s' t)
    (hq : q.taken = s.received t ∧ q.output = s.accepted t) :
    q.taken = s'.received t ∧ q.output = s'.accepted t :=
  ⟨hq.1.trans h.received.symm, hq.2.trans h.accepted.symm⟩

/-- The bytes that a send in order accepts are the next ones of the pipe. -/
theorem Carries.drop_eq {s : State} {t : Nat} (hs : Carries s t) {b : List Byte}
    (hb : s.inFlight t = b) (horder : (s.accepted t).length + b.length = (s.received t).length) :
    (s.received t).drop (s.accepted t).length = b := by
  obtain ⟨pre, hpre⟩ := hs.suffix
  rw [hb] at hpre
  rw [← hpre, List.length_append] at horder
  rw [← hpre, show (s.accepted t).length = pre.length by omega, List.drop_left]

theorem Flow.isPipes {s s' : State} {a : Action} {p : Nat → Pipe Byte} (h : Flow s a s')
    (hcarries : ∀ t < s.threads, Carries s t) (horder : sendsInOrder s a = true)
    (hp : IsPipes s p) :
    ∃ p', Relation.ReflTransGen ((pipes Byte).StepVia fun _ _ => True) p p' ∧ IsPipes s' p' := by
  cases h with
  | same hthreads hsame =>
    refine ⟨p, .refl, fun u => ⟨fun hu => ?_, fun hu => (hp u).2 (hthreads ▸ hu)⟩⟩
    rw [hthreads] at hu
    exact (hsame u hu).isPipe ((hp u).1 hu)
  | receive t b ht hthreads hreceived haccepted hbusy hempty hinFlight hsame =>
    refine ⟨_, pipes_take p t b.bytes, fun u => ?_⟩
    rw [hthreads, Function.update_apply]
    split_ifs with h
    · subst h
      obtain ⟨htaken, houtput⟩ := (hp u).1 ht
      refine ⟨fun _ => ⟨?_, ?_⟩, fun hu => absurd hu (Nat.not_le_of_lt ht)⟩
      · rw [Pipe.taken_take, htaken, hreceived]
      · rw [Pipe.output_take, houtput, haccepted]
    · exact ⟨fun hu => (hsame u hu h).isPipe ((hp u).1 hu), (hp u).2⟩
  | sent t b n haction ht hthreads hle hbusy hbefore hreceived haccepted hafter hsame =>
    obtain ⟨htaken, houtput⟩ := (hp t).1 ht
    have hhanded : (p t).handed = (s.accepted t).length := by rw [← houtput, Pipe.length_output]
    have hall : (s.accepted t).length + b.bytes.length = (s.received t).length := by
      subst haction
      rw [← hbefore]
      exact beq_iff_eq.1 horder
    have hroom : (p t).handed + n ≤ (p t).taken.length := by
      rw [hhanded, htaken]
      omega
    refine ⟨_, pipes_hand p t n hroom, fun u => ?_⟩
    rw [hthreads, Function.update_apply]
    split_ifs with h
    · subst h
      refine ⟨fun _ => ⟨?_, ?_⟩, fun hu => absurd hu (Nat.not_le_of_lt ht)⟩
      · rw [Pipe.taken_hand, htaken, hreceived]
      · rw [Pipe.output_hand, houtput, htaken, hhanded, (hcarries u ht).drop_eq hbefore hall,
          haccepted]
    · exact ⟨fun hu => (hsame u hu h).isPipe ((hp u).1 hu), (hp u).2⟩
  | start hthreads hreceived haccepted hinFlight hsame =>
    refine ⟨p, .refl, fun u => ⟨fun hu => ?_, fun hu => (hp u).2 (by omega)⟩⟩
    rcases Nat.lt_succ_iff_lt_or_eq.1 (hthreads ▸ hu) with hu | rfl
    · exact (hsame u hu).isPipe ((hp u).1 hu)
    · rw [(hp s.threads).2 (Nat.le_refl _), hreceived, haccepted]
      exact ⟨rfl, rfl⟩

/-- Under the condition the relay is a system of pipes. -/
theorem relay_simulates_pipes :
    System.Simulation proxy (pipes Byte) (fun s a => sendsInOrder s a) IsPipes where
  init := fun _ => ⟨fun h => absurd h (Nat.not_lt_zero _), fun _ => rfl⟩
  step hs horder hstep hp :=
    (step_flow hs.reachable hstep).isPipes (reachable_carries hs.reachable) horder hp

/-- What holds of the workers' streams holds of both directions of a
connection: a direction without a worker has carried nothing. -/
theorem transparent_of_workers {s : State} (hs : proxy.Reachable s)
    (h : ∀ t < s.threads, s.accepted t <+: s.received t) : Transparent s := by
  have hwired := reachable_wired hs
  have hboth : ∀ t < s.threads,
      (s.sock (s.thread t).server).tx <+: (s.sock (s.thread t).client).rx ∧
      (s.sock (s.thread t).client).tx <+: (s.sock (s.thread t).server).rx := by
    intro t ht
    refine ⟨h t ht, ?_⟩
    by_cases hback : ∃ u < s.threads, (s.thread u).server = (s.thread t).client
    · obtain ⟨u, hu, hserver⟩ := hback
      have hclient := hwired.opposite t ht u hu hserver.symm
      rw [← hserver, hclient]
      exact h u hu
    · rw [(reachable_unused hs).tx_nil _ fun u hu heq => hback ⟨u, hu, heq⟩]
      exact List.nil_prefix
  rintro k v ⟨t, ht, ⟨rfl, rfl⟩ | ⟨rfl, rfl⟩⟩
  · exact hboth t ht
  · exact (hboth t ht).symm

/-- The relay is transparent in every run in which the sends succeed in
order. -/
theorem relay_transparent {s : State} (hs : proxy.ReachableVia (fun s a => sendsInOrder s a) s) :
    Transparent s := by
  obtain ⟨p, -, hp⟩ := relay_simulates_pipes.reachable hs
  refine transparent_of_workers hs.reachable fun t ht => ?_
  obtain ⟨htaken, houtput⟩ := (hp t).1 ht
  rw [← htaken, ← houtput]
  exact (p t).output_isPrefix

/-- A send cut short at the end of a run: the bytes that did get through are
still a prefix. -/
theorem relay_transparent_last_cut_short :
    ∃ s, proxy.ReachableVia (fun s a => sendsInOrder s a) s ∧ IsConnection s 0 1 ∧
      (s.sock 0).rx = [1, 2, 3, 4] ∧ (s.sock 1).tx = [1, 2, 3] ∧ Transparent s := by
  have hrun : (proxy.execVia sendsInOrder (connectRun ++
      copyRun 1 ⟨[1, 2], by decide, by decide⟩ 2 ++
      copyRun 1 ⟨[3, 4], by decide, by decide⟩ 1) proxy.init).map
        (fun s => ((s.threads, (s.thread 1).client, (s.thread 1).server),
          (s.sock 0).rx, (s.sock 1).tx)) = some ((2, 0, 1), [1, 2, 3, 4], [1, 2, 3]) := by
    decide +kernel
  obtain ⟨s, hexec, hs⟩ := Option.map_eq_some_iff.1 hrun
  simp only [Prod.mk.injEq] at hs
  obtain ⟨⟨hthreads, hargs⟩, hrx, htx⟩ := hs
  have hreach := System.reachableVia_exec hexec
  exact ⟨s, hreach, ⟨1, by omega, .inl hargs⟩, hrx, htx, relay_transparent hreach⟩

/-- One send cut short and one more send: the byte `2` is missing in the
middle. -/
theorem relay_leaves_gap :
    ∃ s, proxy.Reachable s ∧ IsConnection s 0 1 ∧ (s.sock 0).rx = [1, 2, 3] ∧
      (s.sock 1).tx = [1, 3] ∧ ¬ Transparent s := by
  have hrun : (proxy.execVia (fun _ _ => true) (connectRun ++
      copyRun 1 ⟨[1, 2], by decide, by decide⟩ 1 ++
      copyRun 1 ⟨[3], by decide, by decide⟩ 1) proxy.init).map
        (fun s => ((s.threads, (s.thread 1).client, (s.thread 1).server),
          (s.sock 0).rx, (s.sock 1).tx)) = some ((2, 0, 1), [1, 2, 3], [1, 3]) := by
    decide +kernel
  obtain ⟨s, hexec, hs⟩ := Option.map_eq_some_iff.1 hrun
  obtain ⟨hthread, hsock⟩ := Prod.mk.inj hs
  obtain ⟨hrx, htx⟩ := Prod.mk.inj hsock
  obtain ⟨hthreads, hargs⟩ := Prod.mk.inj hthread
  have hconnection : IsConnection s 0 1 := ⟨1, by omega, .inl (Prod.mk.inj hargs)⟩
  refine ⟨s, (System.reachableVia_exec hexec).reachable, hconnection, hrx, htx, fun h => ?_⟩
  have hprefix := (h 0 1 hconnection).1
  rw [hrx, htx] at hprefix
  revert hprefix
  decide

/-! ## Whole sends -/

/-- A send that succeeds accepts its whole chunk. -/
def sendsWhole (s : State) : Action → Bool
  | .worker t (.sent n) => n == (s.inFlight t).length
  | _ => true

/-- All that a worker in its loop has received is accepted or in flight. -/
def Level (s : State) (t : Nat) : Prop :=
  s.leaving t = false → (s.accepted t).length + (s.inFlight t).length = (s.received t).length

theorem SameStreams.level {s s' : State} {t : Nat} (h : SameStreams s s' t) (hs : Level s t) :
    Level s' t := by
  intro hbusy
  have hbefore : s.leaving t = false := by
    by_contra hleaving
    rw [h.leaving (by simpa using hleaving)] at hbusy
    cases hbusy
  rw [h.accepted, h.received, h.inFlight hbusy]
  exact hs hbefore

theorem Flow.level {s s' : State} {a : Action} (h : Flow s a s') (hwhole : sendsWhole s a = true)
    (hs : ∀ t < s.threads, Level s t) : ∀ t < s'.threads, Level s' t := by
  cases h with
  | same hthreads hsame => exact fun u hu => (hsame u (hthreads ▸ hu)).level (hs u (hthreads ▸ hu))
  | receive t b ht hthreads hreceived haccepted hbusy hempty hinFlight hsame =>
    intro u hu
    rw [hthreads] at hu
    by_cases h : u = t
    · subst h
      intro _
      have hlevel := hs u hu hbusy
      rw [hempty, List.length_nil] at hlevel
      rw [hreceived, haccepted, hinFlight, List.length_append]
      omega
    · exact (hsame u hu h).level (hs u hu)
  | sent t b n haction ht hthreads hle hbusy hbefore hreceived haccepted hafter hsame =>
    intro u hu
    rw [hthreads] at hu
    by_cases h : u = t
    · subst h
      intro _
      have hlevel := hs u hu hbusy
      subst haction
      have hn : n = (s.inFlight u).length := beq_iff_eq.1 hwhole
      rw [hbefore] at hlevel hn
      rw [hreceived, haccepted, hafter, List.length_append, List.length_take, List.length_nil]
      omega
    · exact (hsame u hu h).level (hs u hu)
  | start hthreads hreceived haccepted hinFlight hsame =>
    intro u hu
    rcases Nat.lt_succ_iff_lt_or_eq.1 (hthreads ▸ hu) with hu | rfl
    · exact (hsame u hu).level (hs u hu)
    · intro _
      rw [hreceived, haccepted, hinFlight]
      rfl

/-- With whole sends the sends succeed in order. -/
theorem reachableVia_sendsInOrder {s : State}
    (hs : proxy.ReachableVia (fun s a => sendsWhole s a) s) :
    proxy.ReachableVia (fun s a => sendsInOrder s a) s := by
  refine (hs.invariant (I := fun s => proxy.ReachableVia (fun s a => sendsInOrder s a) s ∧
    ∀ t < s.threads, Level s t) ⟨.refl, fun t ht => absurd ht (Nat.not_lt_zero t)⟩ ?_).1
  intro s a s' hs hwhole hstep ⟨hvia, hlevel⟩
  refine ⟨hvia.tail ?_ hstep, (step_flow hs.reachable hstep).level hwhole hlevel⟩
  unfold sendsInOrder
  split
  · obtain ⟨ht, b, hpc⟩ := (step_effect hstep).sent_pc
    exact beq_iff_eq.2 (hlevel _ ht (by simp [State.leaving, hpc, Pc.leaving]))
  · rfl

end Cheesecloth.Proxy
