import Cheesecloth.Proxy.Steps

/-!
# The byte streams of the workers

A worker copies a stream: what it has received from its `client`, what its
`server` has accepted, and the chunk in flight between the two.

* `Flow` lists the steps by what they do to these streams.  `step_flow` reduces
  every step of the relay to it, so that the streams can be reasoned about
  without the sockets.
* `Carries` is what holds of the streams whatever `send` does: the chunk in
  flight is the end of what was received, and no more is accepted than was
  received.
-/

namespace Cheesecloth.Proxy

open CodeLib

/-! ## The streams -/

/-- The chunk that a worker holds between its `recv` and the end of its
`send`. -/
def Pc.inFlight : Pc → List Byte
  | .read b | .write b _ | .send b | .sending b => b.bytes
  | _ => []

/-- The worker is past its loop. -/
def Pc.leaving : Pc → Bool
  | .killp _ | .returned => true
  | _ => false

theorem Pc.inFlight_of_leaving {pc : Pc} (h : pc.leaving = true) : pc.inFlight = [] := by
  cases pc <;> first | rfl | cases h

namespace State

/-- What the worker `t` has received. -/
def received (s : State) (t : Nat) : List Byte := (s.sock (s.thread t).client).rx

/-- What the destination of the worker `t` has accepted. -/
def accepted (s : State) (t : Nat) : List Byte := (s.sock (s.thread t).server).tx

/-- What the worker `t` holds. -/
def inFlight (s : State) (t : Nat) : List Byte := (s.thread t).pc.inFlight

def leaving (s : State) (t : Nat) : Bool := (s.thread t).pc.leaving

end State

/-- The streams of the worker `t` stay as they are.  The chunk that it holds is
dropped only when it leaves its loop, and it never comes back. -/
structure SameStreams (s s' : State) (t : Nat) : Prop where
  received : s'.received t = s.received t
  accepted : s'.accepted t = s.accepted t
  leaving : s.leaving t = true → s'.leaving t = true
  inFlight : s'.leaving t = false → s'.inFlight t = s.inFlight t

/-- The steps of the relay, by what they do to the streams. -/
inductive Flow (s : State) (a : Action) (s' : State) : Prop
  | same (hthreads : s'.threads = s.threads) (hsame : ∀ u < s.threads, SameStreams s s' u)
  | receive (t : Nat) (b : Chunk) (ht : t < s.threads) (hthreads : s'.threads = s.threads)
      (hreceived : s'.received t = s.received t ++ b.bytes)
      (haccepted : s'.accepted t = s.accepted t) (hbusy : s.leaving t = false)
      (hempty : s.inFlight t = []) (hinFlight : s'.inFlight t = b.bytes)
      (hsame : ∀ u < s.threads, u ≠ t → SameStreams s s' u)
  | sent (t : Nat) (b : Chunk) (n : Nat) (haction : a = .worker t (.sent n))
      (ht : t < s.threads) (hthreads : s'.threads = s.threads)
      (hle : n ≤ b.bytes.length) (hbusy : s.leaving t = false)
      (hbefore : s.inFlight t = b.bytes)
      (hreceived : s'.received t = s.received t)
      (haccepted : s'.accepted t = s.accepted t ++ b.bytes.take n) (hafter : s'.inFlight t = [])
      (hsame : ∀ u < s.threads, u ≠ t → SameStreams s s' u)
  | start (hthreads : s'.threads = s.threads + 1) (hreceived : s'.received s.threads = [])
      (haccepted : s'.accepted s.threads = []) (hinFlight : s'.inFlight s.threads = [])
      (hsame : ∀ u < s.threads, SameStreams s s' u)

/-! ## Sockets that no worker uses -/

/-- Nothing was received from a socket that is no worker's source, and nothing
accepted by one that is no worker's destination. -/
structure Unused (s : State) : Prop where
  rx_nil : ∀ i, (∀ t < s.threads, (s.thread t).client ≠ i) → (s.sock i).rx = []
  tx_nil : ∀ i, (∀ t < s.threads, (s.thread t).server ≠ i) → (s.sock i).tx = []

theorem Unused.sameHolders {s s' : State} (hs : Unused s) (h : SameHolders s s')
    (hrx : ∀ i, (∀ t < s.threads, (s.thread t).client ≠ i) → (s'.sock i).rx = (s.sock i).rx)
    (htx : ∀ i, (∀ t < s.threads, (s.thread t).server ≠ i) → (s'.sock i).tx = (s.sock i).tx) :
    Unused s' := by
  constructor
  · intro i hi
    simp only [h.threads, h.client] at hi
    rw [hrx i hi, hs.rx_nil i hi]
  · intro i hi
    simp only [h.threads, h.server] at hi
    rw [htx i hi, hs.tx_nil i hi]

theorem Unused.startThread {s : State} (hs : Unused s) {i j : Nat} {d : Direction} {pc : MainPc} :
    Unused ((s.startThread i j d).setMain pc) := by
  constructor
  · intro k hk
    refine hs.rx_nil k fun t ht => ?_
    simpa [Nat.ne_of_lt ht] using hk t (Nat.lt_succ_of_lt ht)
  · intro k hk
    refine hs.tx_nil k fun t ht => ?_
    simpa [Nat.ne_of_lt ht] using hk t (Nat.lt_succ_of_lt ht)

theorem Unused.makeSocket {s : State} (hs : Unused s) {pc : MainPc} :
    Unused (s.makeSocket.setMain pc) := by
  constructor
  · intro i hi
    by_cases h : i = s.socks
    · simp [h]
    · simpa [h] using hs.rx_nil i hi
  · intro i hi
    by_cases h : i = s.socks
    · simp [h]
    · simpa [h] using hs.tx_nil i hi

theorem setSocket_rx {s : State} {i : Nat} {x : Socket} (hx : x.rx = (s.sock i).rx) (j : Nat) :
    ((s.setSocket i x).sock j).rx = (s.sock j).rx := by
  rw [State.setSocket_sock]
  split_ifs with h
  · rw [h, hx]
  · rfl

theorem setSocket_tx {s : State} {i : Nat} {x : Socket} (hx : x.tx = (s.sock i).tx) (j : Nat) :
    ((s.setSocket i x).sock j).tx = (s.sock j).tx := by
  rw [State.setSocket_sock]
  split_ifs with h
  · rw [h, hx]
  · rfl

theorem Effect.unused {s s' : State} {a : Action} (h : Effect s a s') (hs : Unused s) :
    Unused s' := by
  cases h with
  | silent => exact hs.sameHolders (.setPc ..) (by simp) (by simp)
  | receive ht hpc =>
    exact hs.sameHolders (.setSocket_setPc ..) (fun i hi => by simp [(hi _ ht).symm])
      fun i _ => setSocket_tx (by rfl) i
  | write => exact hs.sameHolders (.setCounter_setPc ..) (by simp) (by simp)
  | sent ht hpc hpos hle =>
    exact hs.sameHolders (.setSocket_setPc ..) (fun i _ => setSocket_rx (by rfl) i)
      fun i hi => by simp [(hi _ ht).symm]
  | call raises ht hpc hrun =>
    obtain ⟨x, rfl, hrx, htx, -⟩ := Call.run_eq hrun
    exact hs.sameHolders (.setSocket_setPc ..) (fun i _ => setSocket_rx hrx i)
      fun i _ => setSocket_tx htx i
  | idle | handler => exact ⟨hs.rx_nil, hs.tx_nil⟩
  | accept => exact hs.makeSocket
  | socket => exact hs.makeSocket
  | connect => exact ⟨hs.rx_nil, hs.tx_nil⟩
  | startT2 => exact hs.startThread
  | startT1 => exact hs.startThread
  | mainCall raises _ hrun =>
    obtain ⟨x, rfl, hrx, htx, -⟩ := Call.run_eq hrun
    exact hs.sameHolders (.setSocket_setMain ..) (fun i _ => setSocket_rx hrx i)
      fun i _ => setSocket_tx htx i

theorem reachable_unused {s : State} (hs : proxy.Reachable s) : Unused s :=
  hs.invariant (I := Unused) ⟨fun _ _ => rfl, fun _ _ => rfl⟩ fun _ _ hstep hunused =>
    (step_effect hstep).unused hunused

/-! ## Every step as a flow -/

theorem SameHolders.sameStreams {s s' : State} {u : Nat} (h : SameHolders s s')
    (hrx : (s'.sock (s.thread u).client).rx = (s.sock (s.thread u).client).rx)
    (htx : (s'.sock (s.thread u).server).tx = (s.sock (s.thread u).server).tx)
    (hleaving : s.leaving u = true → s'.leaving u = true)
    (hinFlight : s'.leaving u = false → s'.inFlight u = s.inFlight u) : SameStreams s s' u := by
  refine ⟨?_, ?_, hleaving, hinFlight⟩
  · rw [State.received, h.client, hrx, State.received]
  · rw [State.accepted, h.server, htx, State.accepted]

/-- A worker that does not move. -/
theorem SameHolders.sameStreams_of_pc {s s' : State} {u : Nat} (h : SameHolders s s')
    (hrx : (s'.sock (s.thread u).client).rx = (s.sock (s.thread u).client).rx)
    (htx : (s'.sock (s.thread u).server).tx = (s.sock (s.thread u).server).tx)
    (hpc : (s'.thread u).pc = (s.thread u).pc) : SameStreams s s' u :=
  h.sameStreams hrx htx (fun hl => by rwa [State.leaving, hpc])
    fun _ => by rw [State.inFlight, hpc, State.inFlight]

theorem leaving_killpPc (calls : List Call) : (killpPc calls).leaving = true := by
  cases calls <;> rfl

theorem Silent.leaving_eq {s : State} {w : Worker} {pc pc' : Pc} {o : Outcome}
    (h : Silent s w pc o pc') : pc.leaving = false := by
  cases h <;> rfl

theorem Silent.inFlight_eq {s : State} {w : Worker} {pc pc' : Pc} {o : Outcome}
    (h : Silent s w pc o pc') (hbusy : pc'.leaving = false) : pc'.inFlight = pc.inFlight := by
  cases h <;> first | rfl | cases hbusy

theorem Wired.sameStreams_makeSocket {s : State} (hs : Wired s) {u : Nat} (hu : u < s.threads)
    {pc : MainPc} : SameStreams s (s.makeSocket.setMain pc) u := by
  refine ⟨?_, ?_, id, fun _ => rfl⟩
  · simp [State.received, Nat.ne_of_lt (hs.client_lt u hu)]
  · simp [State.accepted, Nat.ne_of_lt (hs.server_lt u hu)]

/-- A new worker starts on streams where nothing has happened. -/
theorem Unused.flow_startThread {s : State} (hs : Unused s) {a : Action} {i j : Nat}
    {d : Direction} {pc : MainPc}
    (hfree : ∀ u < s.threads, (s.thread u).client ≠ i ∧ (s.thread u).server ≠ j) :
    Flow s a ((s.startThread i j d).setMain pc) := by
  refine .start rfl ?_ ?_ ?_ fun u hu => ⟨?_, ?_, ?_, fun _ => ?_⟩
  · simpa [State.received] using hs.rx_nil i fun u hu => (hfree u hu).1
  · simpa [State.accepted] using hs.tx_nil j fun u hu => (hfree u hu).2
  · simp [State.inFlight, Pc.inFlight]
  · simp [State.received, Nat.ne_of_lt hu]
  · simp [State.accepted, Nat.ne_of_lt hu]
  · simp [State.leaving, Nat.ne_of_lt hu]
  · simp [State.inFlight, Nat.ne_of_lt hu]

theorem Effect.flow {s s' : State} {a : Action} (h : Effect s a s') (hwired : Wired s)
    (hunused : Unused s) : Flow s a s' := by
  cases h with
  | @silent t _ pc pc' ht hpc hmove =>
    refine .same rfl fun u hu => ?_
    by_cases h : u = t
    · subst h
      refine (SameHolders.setPc ..).sameStreams rfl rfl ?_ ?_
      · simp [State.leaving, hpc, hmove.leaving_eq]
      · simpa [State.leaving, State.inFlight, hpc] using hmove.inFlight_eq
    · exact (SameHolders.setPc ..).sameStreams_of_pc rfl rfl (by simp [h])
  | @receive t b ht hpc =>
    refine .receive t b ht rfl ?_ ?_ ?_ ?_ ?_ fun u hu hne => ?_
    · simp [State.received]
    · simp only [State.accepted, State.setPc_server, State.setPc_sock]
      exact setSocket_tx (by rfl) _
    · simp [State.leaving, hpc, Pc.leaving]
    · simp [State.inFlight, hpc, Pc.inFlight]
    · simp [State.inFlight, Pc.inFlight]
    · have hclient : (s.thread u).client ≠ (s.thread t).client :=
        fun h => hne (hwired.client_inj u hu t ht h)
      exact (SameHolders.setSocket_setPc ..).sameStreams_of_pc (by simp [hclient])
        (setSocket_tx (by rfl) _) (by simp [hne])
  | @write t b tmp ht hpc =>
    refine .same (by simp) fun u hu => ?_
    by_cases h : u = t
    · subst h
      refine (SameHolders.setCounter_setPc ..).sameStreams (by simp) (by simp) ?_ fun _ => ?_
      · simp [State.leaving, hpc, Pc.leaving]
      · simp [State.inFlight, hpc, Pc.inFlight]
    · exact (SameHolders.setCounter_setPc ..).sameStreams_of_pc (by simp) (by simp) (by simp [h])
  | @sent t b n ht hpc hpos hle =>
    refine .sent t b n rfl ht rfl hle ?_ ?_ ?_ ?_ ?_ fun u hu hne => ?_
    · simp [State.leaving, hpc, Pc.leaving]
    · simp [State.inFlight, hpc, Pc.inFlight]
    · simp only [State.received, State.setPc_client, State.setPc_sock]
      exact setSocket_rx (by rfl) _
    · simp [State.accepted]
    · simp [State.inFlight, Pc.inFlight]
    · have hserver : (s.thread u).server ≠ (s.thread t).server :=
        fun h => hne (hwired.server_inj u hu t ht h)
      exact (SameHolders.setSocket_setPc ..).sameStreams_of_pc (setSocket_rx (by rfl) _)
        (by simp [hserver]) (by simp [hne])
  | @call t c calls s₁ raises ht hpc hrun =>
    obtain ⟨x, rfl, hrx, htx, -⟩ := Call.run_eq hrun
    refine .same rfl fun u hu => ?_
    by_cases h : u = t
    · subst h
      have hleaving : ((s.setSocket c.target x).setPc u
          (if raises = true then .returned else killpPc calls)).leaving u = true := by
        rw [State.leaving, State.setPc_pc, if_pos rfl]
        split_ifs
        · rfl
        · exact leaving_killpPc calls
      refine (SameHolders.setSocket_setPc ..).sameStreams (setSocket_rx hrx _)
        (setSocket_tx htx _) (fun _ => hleaving) fun hbusy => ?_
      rw [hleaving] at hbusy
      cases hbusy
    · exact (SameHolders.setSocket_setPc ..).sameStreams_of_pc (setSocket_rx hrx _)
        (setSocket_tx htx _) (by simp [h])
  | idle | handler => exact .same rfl fun u _ => ⟨rfl, rfl, id, fun _ => rfl⟩
  | accept => exact .same rfl fun u hu => hwired.sameStreams_makeSocket hu
  | socket => exact .same rfl fun u hu => hwired.sameStreams_makeSocket hu
  | connect => exact .same rfl fun u _ => ⟨rfl, rfl, id, fun _ => rfl⟩
  | startT2 hmain =>
    have hmaking := hwired.making
    rw [MakingWired, hmain] at hmaking
    obtain ⟨hne, hk, hv⟩ := hmaking
    exact hunused.flow_startThread
      (free_of_heldOnlyBy hne.symm hv hk fun h => absurd h (Nat.lt_irrefl _))
  | startT1 hmain =>
    have hmaking := hwired.making
    rw [MakingWired, hmain] at hmaking
    obtain ⟨hne, hk, hv, -, hclient, hserver⟩ := hmaking
    exact hunused.flow_startThread (free_of_heldOnlyBy hne hk hv fun _ => ⟨hclient, hserver⟩)
  | mainCall raises _ hrun =>
    obtain ⟨x, rfl, hrx, htx, -⟩ := Call.run_eq hrun
    exact .same rfl fun u hu => (SameHolders.setSocket_setMain ..).sameStreams_of_pc
      (setSocket_rx hrx _) (setSocket_tx htx _) rfl

/-- Every step of the relay is a flow. -/
theorem step_flow {s s' : State} {a : Action} (hs : proxy.Reachable s)
    (hstep : proxy.step s a = some s') : Flow s a s' :=
  (step_effect hstep).flow (reachable_wired hs) (reachable_unused hs)

/-! ## What holds whatever `send` does -/

/-- The chunk in flight is the end of what was received, and it comes after
what was accepted. -/
structure Carries (s : State) (t : Nat) : Prop where
  suffix : s.inFlight t <:+ s.received t
  length_le : (s.accepted t).length + (s.inFlight t).length ≤ (s.received t).length

theorem SameStreams.carries {s s' : State} {t : Nat} (h : SameStreams s s' t)
    (hs : Carries s t) : Carries s' t := by
  obtain ⟨hsuffix, hle⟩ := hs
  rw [← h.received] at hsuffix hle
  rw [← h.accepted] at hle
  cases hleaving : s'.leaving t with
  | false =>
    rw [← h.inFlight hleaving] at hsuffix hle
    exact ⟨hsuffix, hle⟩
  | true =>
    have hnil : s'.inFlight t = [] := Pc.inFlight_of_leaving hleaving
    refine ⟨hnil ▸ List.nil_suffix, ?_⟩
    rw [hnil, List.length_nil]
    omega

theorem Flow.carries {s s' : State} {a : Action} (h : Flow s a s')
    (hs : ∀ t < s.threads, Carries s t) : ∀ t < s'.threads, Carries s' t := by
  cases h with
  | same hthreads hsame =>
    exact fun u hu => (hsame u (hthreads ▸ hu)).carries (hs u (hthreads ▸ hu))
  | receive t b ht hthreads hreceived haccepted hbusy hempty hinFlight hsame =>
    intro u hu
    rw [hthreads] at hu
    by_cases h : u = t
    · subst h
      refine ⟨?_, ?_⟩
      · rw [hinFlight, hreceived]
        exact List.suffix_append _ _
      · rw [hinFlight, hreceived, haccepted, List.length_append]
        have := (hs u hu).length_le
        omega
    · exact (hsame u hu h).carries (hs u hu)
  | sent t b n haction ht hthreads hle hbusy hbefore hreceived haccepted hafter hsame =>
    intro u hu
    rw [hthreads] at hu
    by_cases h : u = t
    · subst h
      refine ⟨hafter ▸ List.nil_suffix, ?_⟩
      have hlength := (hs u hu).length_le
      rw [hbefore] at hlength
      rw [hafter, hreceived, haccepted, List.length_append, List.length_take, List.length_nil]
      omega
    · exact (hsame u hu h).carries (hs u hu)
  | start hthreads hreceived haccepted hinFlight hsame =>
    intro u hu
    rw [hthreads] at hu
    by_cases h : u = s.threads
    · subst h
      refine ⟨hinFlight ▸ List.nil_suffix, ?_⟩
      rw [hinFlight, hreceived, haccepted]
      exact Nat.le_refl 0
    · exact (hsame u (by omega)).carries (hs u (by omega))

theorem reachable_carries {s : State} (hs : proxy.Reachable s) : ∀ t < s.threads, Carries s t := by
  refine hs.invariant (I := fun s => ∀ t < s.threads, Carries s t) ?_ ?_
  · exact fun t ht => absurd ht (Nat.not_lt_zero t)
  · exact fun hs _ hstep hcarries => (step_flow hs hstep).carries hcarries

/-! ## Runs to evaluate -/

/-- The main thread sets up and makes a connection.  The worker from the server
is the thread `0` and the worker from the client the thread `1`.  The tail makes
one more connection. -/
def connectRun : List Action := List.replicate 7 (.main .ok)

/-- One turn of the loop of the worker `t`: it receives `b`, and `send` accepts
`n` bytes of it. -/
def copyRun (t : Nat) (b : Chunk) (n : Nat) : List Action :=
  [.ok, .ok, .data b, .ok, .ok, .ok, .sent n].map (.worker t)

end Cheesecloth.Proxy
