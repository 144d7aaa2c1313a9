import Mathlib.Tactic.SplitIfs
import Cheesecloth.Proxy.Model

/-!
# What a step of the relay can do

* `Effect` lists the steps by what they change: the place of one worker, a
  socket, a counter, or the main thread.  `step_effect` says that the list is
  complete, so that an invariant is proved against `Effect` and not against
  the code.
* `Wired` says how the threads hold the sockets: every socket is the source of
  at most one worker and the destination of at most one, and the two workers
  of a connection hold the same two sockets.  It holds in every reachable
  state (`reachable_wired`).
* `running` never changes (`reachable_running`), whatever signals arrive.
-/

namespace Cheesecloth.Proxy

open CodeLib

/-! ## Fields after an update -/

namespace State

variable (s : State) (t u : Nat) (pc : Pc)

@[simp] theorem setSocket_sock (i j : Nat) (x : Socket) :
    (s.setSocket i x).sock j = if j = i then x else s.sock j :=
  Function.update_apply ..

@[simp] theorem setPc_client : ((s.setPc t pc).thread u).client = (s.thread u).client := by
  by_cases h : u = t <;> simp [setPc, h]

@[simp] theorem setPc_server : ((s.setPc t pc).thread u).server = (s.thread u).server := by
  by_cases h : u = t <;> simp [setPc, h]

@[simp] theorem setPc_direction : ((s.setPc t pc).thread u).direction = (s.thread u).direction := by
  by_cases h : u = t <;> simp [setPc, h]

@[simp] theorem setPc_pc :
    ((s.setPc t pc).thread u).pc = if u = t then pc else (s.thread u).pc := by
  by_cases h : u = t <;> simp [setPc, h]

@[simp] theorem makeSocket_sock (j : Nat) :
    s.makeSocket.sock j = if j = s.socks then {} else s.sock j :=
  Function.update_apply ..

@[simp] theorem startThread_thread (client server : Nat) (d : Direction) :
    (s.startThread client server d).thread u =
      if u = s.threads then ⟨client, server, d, .loop⟩ else s.thread u :=
  Function.update_apply ..

end State

/-! ## The steps by what they change -/

/-- The worker's moves that change nothing but its place. -/
inductive Silent (s : State) (w : Worker) : Pc → Outcome → Pc → Prop
  | loop (h : s.running = true) : Silent s w .loop .ok .recv
  | stop (h : s.running = false) : Silent s w .loop .ok (.killp (killp w.client w.server))
  | recv (h : (s.sock w.client).closed = false) : Silent s w .recv .ok .receiving
  | recvClosed (h : (s.sock w.client).closed = true) :
    Silent s w .recv .ok (.killp (killp w.client w.server))
  | eof : Silent s w .receiving .eof (.killp (killp w.client w.server))
  | recvRaises : Silent s w .receiving .raises (.killp (killp w.client w.server))
  | read (b : Chunk) : Silent s w (.read b) .ok (.write b (s.counter w.direction))
  | send (b : Chunk) (h : ((s.sock w.server).closed || (s.sock w.server).shut) = false) :
    Silent s w (.send b) .ok (.sending b)
  | sendClosed (b : Chunk) (h : ((s.sock w.server).closed || (s.sock w.server).shut) = true) :
    Silent s w (.send b) .ok (.killp (killp w.client w.server))
  | sendRaises (b : Chunk) : Silent s w (.sending b) .raises (.killp (killp w.client w.server))

/-- The outcome of a call that raises or not. -/
def callOutcome (raises : Bool) : Outcome := if raises then .raises else .ok

def Action.isWorker : Action → Bool
  | .worker _ _ => true
  | _ => false

/-- The main thread is making a connection. -/
def MainPc.Making : MainPc → Prop
  | .socket _ | .connect _ _ | .startT2 _ _ | .startT1 _ _ _ => True
  | _ => False

/-- `inthandler` has read one of the two counters that it adds. -/
def MainPc.Summing : MainPc → Prop
  | .handler (.sum _) _ => True
  | _ => False

/-- The steps of the relay, by what they change. -/
inductive Effect (s : State) : Action → State → Prop
  | silent {t o pc pc'} (ht : t < s.threads) (hpc : (s.thread t).pc = pc)
      (hmove : Silent s (s.thread t) pc o pc') : Effect s (.worker t o) (s.setPc t pc')
  | receive {t b} (ht : t < s.threads) (hpc : (s.thread t).pc = .receiving) :
    Effect s (.worker t (.data b))
      ((s.setSocket (s.thread t).client ((s.sock (s.thread t).client).receive b)).setPc t (.read b))
  | write {t b tmp} (ht : t < s.threads) (hpc : (s.thread t).pc = .write b tmp) :
    Effect s (.worker t .ok)
      ((s.setCounter (s.thread t).direction (tmp + b.bytes.length)).setPc t (.send b))
  | sent {t b n} (ht : t < s.threads) (hpc : (s.thread t).pc = .sending b) (hpos : 0 < n)
      (hle : n ≤ b.bytes.length) :
    Effect s (.worker t (.sent n)) ((s.setSocket (s.thread t).server
      ((s.sock (s.thread t).server).accept (b.bytes.take n))).setPc t .loop)
  | call {t c calls s₁} (raises : Bool) (ht : t < s.threads)
      (hpc : (s.thread t).pc = .killp (c :: calls)) (hrun : c.run s raises = some s₁) :
    Effect s (.worker t (callOutcome raises))
      (s₁.setPc t (if raises then .returned else killpPc calls))
  | idle {a} (ha : a.isWorker = false) (pc : MainPc) (ws : List Entry)
      (hpc : pc = s.main ∨ ¬ pc.Making ∧ ¬ pc.Summing)
      (hkill : ∀ calls e rest, s.main = .killp calls e rest → pc = s.main ∨ a = .sigint) :
    Effect s a { s with main := pc, workers := ws }
  | handler {line pc} (hmain : s.main = .handler line pc) :
    Effect s (.main .ok)
      { s with main := (inthandler s pc line).main, out := (inthandler s pc line).out }
  | accept (hmain : s.main = .accept) :
    Effect s (.main .ok) (s.makeSocket.setMain (.socket s.socks))
  | socket {k} (hmain : s.main = .socket k) :
    Effect s (.main .ok) (s.makeSocket.setMain (.connect k s.socks))
  | connect {k v} (hmain : s.main = .connect k v) :
    Effect s (.main .ok) (s.setMain (.startT2 k v))
  | startT2 {k v} (hmain : s.main = .startT2 k v) :
    Effect s (.main .ok) ((s.startThread v k .server2client).setMain (.startT1 k v s.threads))
  | startT1 {k v t2} (hmain : s.main = .startT1 k v t2) :
    Effect s (.main .ok)
      ((s.startThread k v .client2server).setMain (.append ⟨s.threads, t2, k, v⟩))
  | mainCall {c calls e rest s₁} (raises : Bool) (hmain : s.main = .killp (c :: calls) e rest)
      (hrun : c.run s raises = some s₁) :
    Effect s (.main (callOutcome raises)) (s₁.setMain
      (if raises then .joinT1 e rest else
        if calls = [] then .joinT1 e rest else .killp calls e rest))

theorem workerStep_effect {s s' : State} {t : Nat} {o : Outcome} (ht : t < s.threads)
    (h : workerStep s t o = some s') : Effect s (.worker t o) s' := by
  unfold workerStep at h
  dsimp only at h
  split at h
  case h_1 hpc =>
    cases h
    split_ifs with hrunning
    · exact .silent ht hpc (.loop hrunning)
    · exact .silent ht hpc (.stop (by simpa using hrunning))
  case h_2 hpc =>
    cases h
    split_ifs with hclosed
    · exact .silent ht hpc (.recvClosed hclosed)
    · exact .silent ht hpc (.recv (by simpa using hclosed))
  case h_3 hpc =>
    cases h
    exact .receive ht hpc
  case h_4 hpc =>
    cases h
    exact .silent ht hpc .eof
  case h_5 hpc =>
    cases h
    exact .silent ht hpc .recvRaises
  case h_6 hpc =>
    cases h
    exact .silent ht hpc (.read _)
  case h_7 hpc =>
    cases h
    exact .write ht hpc
  case h_8 hpc =>
    cases h
    split_ifs with hclosed
    · exact .silent ht hpc (.sendClosed _ hclosed)
    · exact .silent ht hpc (.send _ (by simpa using hclosed))
  case h_9 hpc =>
    split_ifs at h with hn
    cases h
    exact .sent ht hpc hn.1 hn.2
  case h_10 hpc =>
    cases h
    exact .silent ht hpc (.sendRaises _)
  case h_11 hpc =>
    obtain ⟨s₁, hrun, rfl⟩ := Option.map_eq_some_iff.1 h
    exact .call false ht hpc hrun
  case h_12 hpc =>
    obtain ⟨s₁, hrun, rfl⟩ := Option.map_eq_some_iff.1 h
    exact .call true ht hpc hrun
  case h_13 => cases h

theorem cleanupPc_idle (es : List Entry) : ¬ (cleanupPc es).Making ∧ ¬ (cleanupPc es).Summing := by
  cases es <;> exact ⟨id, id⟩

theorem raisePc_idle (ws : List Entry) (pc : MainPc) :
    ¬ (raisePc ws pc).Making ∧ ¬ (raisePc ws pc).Summing := by
  induction pc with
  | handler _ _ ih => exact ih
  | accept | socket | connect | startT2 | startT1 | append => exact cleanupPc_idle ws
  | setup | killp | joinT1 | joinT2 | returned | crashed => exact ⟨id, id⟩

theorem acceptLoop_idle (s : State) :
    ¬ (acceptLoop s).main.Making ∧ ¬ (acceptLoop s).main.Summing := by
  rw [acceptLoop, State.setMain_main]
  split_ifs
  · exact ⟨id, id⟩
  · exact cleanupPc_idle _

/-- `inthandler` prints and moves on. -/
theorem inthandler_eq (s : State) (pc : MainPc) (line : Line) :
    inthandler s pc line =
      { s with main := (inthandler s pc line).main, out := (inthandler s pc line).out } := by
  cases line <;> rfl

theorem not_making_inthandler (s : State) (pc : MainPc) (line : Line) :
    ¬ (inthandler s pc line).main.Making := by
  cases line with
  | flush => exact (raisePc_idle s.workers s.main).1
  | c2s | s2c | total | sum => exact id

theorem mainStep_effect {s s' : State} {o : Outcome} (h : mainStep s o = some s') :
    Effect s (.main o) s' := by
  unfold mainStep at h
  split at h
  case h_1 hmain =>
    cases h
    exact .idle rfl _ [] (.inr (acceptLoop_idle _)) (by simp [hmain])
  case h_2 hmain =>
    cases h
    exact .accept hmain
  case h_3 hmain =>
    cases h
    exact .socket hmain
  case h_4 hmain =>
    cases h
    exact .connect hmain
  case h_5 hmain =>
    cases h
    exact .startT2 hmain
  case h_6 hmain =>
    cases h
    exact .startT1 hmain
  case h_7 e hmain =>
    cases h
    exact .idle rfl _ (s.workers ++ [e]) (.inr (acceptLoop_idle _)) (by simp [hmain])
  case h_8 hmain =>
    obtain ⟨s₁, hrun, rfl⟩ := Option.map_eq_some_iff.1 h
    exact .mainCall false hmain hrun
  case h_9 hmain =>
    obtain ⟨s₁, hrun, rfl⟩ := Option.map_eq_some_iff.1 h
    exact .mainCall true hmain hrun
  case h_10 hmain =>
    split_ifs at h
    cases h
    exact .idle rfl _ s.workers (.inr ⟨id, id⟩) (by simp [hmain])
  case h_11 rest hmain =>
    split_ifs at h
    cases h
    exact .idle rfl _ s.workers (.inr (cleanupPc_idle rest)) (by simp [hmain])
  case h_12 hmain =>
    cases h
    rw [inthandler_eq]
    exact .handler hmain
  case h_19 => cases h
  case h_13 hmain | h_14 hmain | h_15 hmain | h_16 hmain | h_17 hmain | h_18 hmain =>
    cases h
    exact .idle rfl _ s.workers (.inr (raisePc_idle _ _)) (by simp [hmain])

/-- The list is complete. -/
theorem step_effect {s s' : State} {a : Action} (h : proxy.step s a = some s') :
    Effect s a s' := by
  change step s a = some s' at h
  cases a with
  | worker t o =>
    rw [step] at h
    split_ifs at h with ht
    exact workerStep_effect ht h
  | main o => exact mainStep_effect h
  | sigint =>
    cases h
    exact .idle rfl _ s.workers (.inr ⟨id, id⟩) fun _ _ _ _ => .inr rfl
  | sigterm =>
    cases h
    exact .idle rfl s.main s.workers (.inl rfl) fun _ _ _ _ => .inl rfl

/-- Only a worker in its `send` has it accepted. -/
theorem Effect.sent_pc {s s' : State} {t n : Nat} (h : Effect s (.worker t (.sent n)) s') :
    t < s.threads ∧ ∃ b, (s.thread t).pc = .sending b := by
  generalize ha : Action.worker t (.sent n) = a at h
  cases h with
  | sent ht hpc =>
    cases ha
    exact ⟨ht, _, hpc⟩
  | silent _ _ hmove => cases ha; cases hmove
  | call raises => cases raises <;> cases ha
  | idle h => subst ha; cases h
  | _ => cases ha

/-- The socket that a call is made on. -/
def Call.target : Call → Nat
  | .shutdown i => i
  | .close i => i

/-- A call changes one socket.  It keeps the bytes, it does not open the socket
again, and `close` closes it. -/
theorem Call.run_eq {s s' : State} {raises : Bool} {c : Call} (h : c.run s raises = some s') :
    ∃ x : Socket, s' = s.setSocket c.target x ∧ x.rx = (s.sock c.target).rx ∧
      x.tx = (s.sock c.target).tx ∧ ((s.sock c.target).closed = true → x.closed = true) ∧
      (c = .close c.target → x.closed = true) := by
  cases c with
  | shutdown i =>
    simp only [Call.run] at h
    split_ifs at h
    · cases h
      exact ⟨s.sock i, by simp [Call.target, State.setSocket], rfl, rfl, id, nofun⟩
    · cases h
      exact ⟨_, rfl, rfl, rfl, id, nofun⟩
  | close i =>
    simp only [Call.run] at h
    split_ifs at h
    cases h
    exact ⟨_, rfl, rfl, rfl, fun _ => rfl, fun _ => rfl⟩

/-! ## The loop test -/

theorem Effect.running_eq {s s' : State} {a : Action} (h : Effect s a s') :
    s'.running = s.running := by
  cases h with
  | call raises ht hpc hrun =>
    obtain ⟨x, rfl, -⟩ := Call.run_eq hrun
    simp
  | mainCall raises _ hrun =>
    obtain ⟨x, rfl, -⟩ := Call.run_eq hrun
    simp
  | _ => simp

/-- Neither handler stops the loops. -/
theorem reachable_running {s : State} (hs : proxy.Reachable s) : s.running = true :=
  hs.invariant (I := fun s => s.running = true) rfl fun _ _ hstep hrunning =>
    (step_effect hstep).running_eq.trans hrunning

/-! ## Who holds which socket -/

/-- No thread holds the socket `i`, except perhaps the thread `t`. -/
def HeldOnlyBy (s : State) (t i : Nat) : Prop :=
  i < s.socks ∧ ∀ u < s.threads, u ≠ t → (s.thread u).client ≠ i ∧ (s.thread u).server ≠ i

/-- The sockets of the connection that the main thread is making. -/
def MakingWired (s : State) : Prop :=
  match s.main with
  | .socket k => HeldOnlyBy s s.threads k
  | .connect k v | .startT2 k v => k ≠ v ∧ HeldOnlyBy s s.threads k ∧ HeldOnlyBy s s.threads v
  | .startT1 k v t2 => k ≠ v ∧ HeldOnlyBy s t2 k ∧ HeldOnlyBy s t2 v ∧ t2 < s.threads ∧
      (s.thread t2).client = v ∧ (s.thread t2).server = k
  | _ => True

/-- Every socket is the source of at most one worker and the destination of at
most one, and these two have their other socket in common. -/
structure Wired (s : State) : Prop where
  client_lt : ∀ t < s.threads, (s.thread t).client < s.socks
  server_lt : ∀ t < s.threads, (s.thread t).server < s.socks
  client_ne_server : ∀ t < s.threads, (s.thread t).client ≠ (s.thread t).server
  client_inj : ∀ t < s.threads, ∀ u < s.threads,
    (s.thread t).client = (s.thread u).client → t = u
  server_inj : ∀ t < s.threads, ∀ u < s.threads,
    (s.thread t).server = (s.thread u).server → t = u
  opposite : ∀ t < s.threads, ∀ u < s.threads,
    (s.thread t).client = (s.thread u).server → (s.thread t).server = (s.thread u).client
  making : MakingWired s

/-- `k` and `v` are the sockets of a connection: a worker copies from the one to
the other. -/
def IsConnection (s : State) (k v : Nat) : Prop :=
  ∃ t < s.threads,
    (s.thread t).client = k ∧ (s.thread t).server = v ∨
    (s.thread t).client = v ∧ (s.thread t).server = k

/-- A step that starts no thread and makes no socket. -/
structure SameHolders (s s' : State) : Prop where
  threads : s'.threads = s.threads
  socks : s'.socks = s.socks
  client : ∀ t, (s'.thread t).client = (s.thread t).client
  server : ∀ t, (s'.thread t).server = (s.thread t).server
  direction : ∀ t, (s'.thread t).direction = (s.thread t).direction

theorem SameHolders.setPc (s : State) (t : Nat) (pc : Pc) : SameHolders s (s.setPc t pc) := by
  constructor <;> simp

theorem SameHolders.setSocket_setPc (s : State) (i : Nat) (x : Socket) (t : Nat) (pc : Pc) :
    SameHolders s ((s.setSocket i x).setPc t pc) := by
  constructor <;> simp

theorem SameHolders.setCounter_setPc (s : State) (d : Direction) (n t : Nat) (pc : Pc) :
    SameHolders s ((s.setCounter d n).setPc t pc) := by
  constructor <;> simp

theorem SameHolders.control (s : State) (pc : MainPc) (ws : List Entry) (out : List Figure) :
    SameHolders s { s with main := pc, workers := ws, out := out } :=
  ⟨rfl, rfl, fun _ => rfl, fun _ => rfl, fun _ => rfl⟩

theorem SameHolders.setMain (s : State) (pc : MainPc) : SameHolders s (s.setMain pc) := by
  constructor <;> simp

theorem SameHolders.setSocket_setMain (s : State) (i : Nat) (x : Socket) (pc : MainPc) :
    SameHolders s ((s.setSocket i x).setMain pc) := by
  constructor <;> simp

theorem SameHolders.makingWired {s s' : State} (h : SameHolders s s') (hmain : s'.main = s.main)
    (hmaking : MakingWired s) : MakingWired s' := by
  simpa only [MakingWired, HeldOnlyBy, hmain, h.threads, h.socks, h.client, h.server]
    using hmaking

theorem makingWired_of_not_making {s : State} (h : ¬ s.main.Making) : MakingWired s := by
  unfold MakingWired
  split <;> simp_all [MainPc.Making]

theorem SameHolders.wired {s s' : State} (h : SameHolders s s') (hmaking : MakingWired s')
    (hs : Wired s) : Wired s' := by
  obtain ⟨hthreads, hsocks, hclient, hserver, -⟩ := h
  refine ⟨?_, ?_, ?_, ?_, ?_, ?_, hmaking⟩
  all_goals simp only [hthreads, hsocks, hclient, hserver]
  · exact hs.client_lt
  · exact hs.server_lt
  · exact hs.client_ne_server
  · exact hs.client_inj
  · exact hs.server_inj
  · exact hs.opposite

theorem SameHolders.wired_of_main {s s' : State} (h : SameHolders s s') (hmain : s'.main = s.main)
    (hs : Wired s) : Wired s' :=
  h.wired (h.makingWired hmain hs.making) hs

theorem Wired.makeSocket {s : State} (hs : Wired s) {pc : MainPc}
    (hmaking : MakingWired (s.makeSocket.setMain pc)) : Wired (s.makeSocket.setMain pc) where
  client_lt t ht := Nat.lt_succ_of_lt (hs.client_lt t ht)
  server_lt t ht := Nat.lt_succ_of_lt (hs.server_lt t ht)
  client_ne_server := hs.client_ne_server
  client_inj := hs.client_inj
  server_inj := hs.server_inj
  opposite := hs.opposite
  making := hmaking

/-- The next socket is nobody's. -/
theorem Wired.heldOnlyBy_next {s : State} (hs : Wired s) (t : Nat) {pc : MainPc} :
    HeldOnlyBy (s.makeSocket.setMain pc) t s.socks :=
  ⟨Nat.lt_succ_self _, fun u hu _ =>
    ⟨Nat.ne_of_lt (hs.client_lt u hu), Nat.ne_of_lt (hs.server_lt u hu)⟩⟩

theorem HeldOnlyBy.makeSocket {s : State} {t i : Nat} (h : HeldOnlyBy s t i) {pc : MainPc} :
    HeldOnlyBy (s.makeSocket.setMain pc) t i :=
  ⟨Nat.lt_succ_of_lt h.1, h.2⟩

theorem HeldOnlyBy.startThread {s : State} {i : Nat} (h : HeldOnlyBy s s.threads i)
    {client server : Nat} {d : Direction} {pc : MainPc} :
    HeldOnlyBy ((s.startThread client server d).setMain pc) s.threads i := by
  refine ⟨h.1, fun u hu hne => ?_⟩
  simpa [hne] using h.2 u (Nat.lt_of_le_of_ne (Nat.le_of_lt_succ hu) hne) hne

/-- No worker receives from `i` or sends to `j` when only a worker for the other
direction holds them. -/
theorem free_of_heldOnlyBy {s : State} {t i j : Nat} (hij : i ≠ j) (hi : HeldOnlyBy s t i)
    (hj : HeldOnlyBy s t j)
    (ht : t < s.threads → (s.thread t).client = j ∧ (s.thread t).server = i) :
    ∀ u < s.threads, (s.thread u).client ≠ i ∧ (s.thread u).server ≠ j := by
  intro u hu
  by_cases hut : u = t
  · subst hut
    rw [(ht hu).1, (ht hu).2]
    exact ⟨hij.symm, hij⟩
  · exact ⟨(hi.2 u hu hut).1, (hj.2 u hu hut).2⟩

/-- A new thread, on sockets that nobody holds or that the thread for the other
direction holds. -/
theorem Wired.startThread {s : State} (hs : Wired s) {t i j : Nat} {d : Direction} {pc : MainPc}
    (hij : i ≠ j) (hi : HeldOnlyBy s t i) (hj : HeldOnlyBy s t j)
    (ht : t < s.threads → (s.thread t).client = j ∧ (s.thread t).server = i)
    (hmaking : MakingWired ((s.startThread i j d).setMain pc)) :
    Wired ((s.startThread i j d).setMain pc) := by
  have hfree := free_of_heldOnlyBy hij hi hj ht
  have hcross : ∀ u < s.threads, (s.thread u).client = j ↔ (s.thread u).server = i := by
    intro u hu
    by_cases hut : u = t
    · subst hut
      exact iff_of_true (ht hu).1 (ht hu).2
    · exact iff_of_false (hj.2 u hu hut).1 (hi.2 u hu hut).2
  -- Each field at the new thread and at the old ones.
  have hcases : ∀ u < s.threads + 1, u = s.threads ∨ u < s.threads ∧ u ≠ s.threads := by omega
  refine ⟨?_, ?_, ?_, ?_, ?_, ?_, hmaking⟩
  · intro u hu
    obtain rfl | ⟨hu, hne⟩ := hcases u hu
    · simpa using hi.1
    · simpa [hne] using hs.client_lt u hu
  · intro u hu
    obtain rfl | ⟨hu, hne⟩ := hcases u hu
    · simpa using hj.1
    · simpa [hne] using hs.server_lt u hu
  · intro u hu
    obtain rfl | ⟨hu, hne⟩ := hcases u hu
    · simpa using hij
    · simpa [hne] using hs.client_ne_server u hu
  · intro u hu w hw
    obtain rfl | ⟨hu, hne⟩ := hcases u hu <;> obtain rfl | ⟨hw, hne'⟩ := hcases w hw
    · simp
    · simpa [hne'] using fun h => absurd h.symm (hfree w hw).1
    · simpa [hne] using fun h => absurd h (hfree u hu).1
    · simpa [hne, hne'] using hs.client_inj u hu w hw
  · intro u hu w hw
    obtain rfl | ⟨hu, hne⟩ := hcases u hu <;> obtain rfl | ⟨hw, hne'⟩ := hcases w hw
    · simp
    · simpa [hne'] using fun h => absurd h.symm (hfree w hw).2
    · simpa [hne] using fun h => absurd h (hfree u hu).2
    · simpa [hne, hne'] using hs.server_inj u hu w hw
  · intro u hu w hw
    obtain rfl | ⟨hu, hne⟩ := hcases u hu <;> obtain rfl | ⟨hw, hne'⟩ := hcases w hw
    · simpa using fun h => absurd h hij
    · simpa [hne'] using fun h => ((hcross w hw).2 h.symm).symm
    · simpa [hne] using (hcross u hu).1
    · simpa [hne, hne'] using hs.opposite u hu w hw

theorem Effect.wired {s s' : State} {a : Action} (h : Effect s a s') (hs : Wired s) : Wired s' := by
  cases h with
  | silent => exact (SameHolders.setPc ..).wired_of_main rfl hs
  | receive => exact (SameHolders.setSocket_setPc ..).wired_of_main rfl hs
  | write => exact (SameHolders.setCounter_setPc ..).wired_of_main rfl hs
  | sent => exact (SameHolders.setSocket_setPc ..).wired_of_main rfl hs
  | call raises ht hpc hrun =>
    obtain ⟨x, rfl, -⟩ := Call.run_eq hrun
    exact (SameHolders.setSocket_setPc ..).wired_of_main rfl hs
  | idle ha pc ws hpc _ =>
    have hsame := SameHolders.control s pc ws s.out
    rcases hpc with rfl | hpc
    · exact hsame.wired_of_main rfl hs
    · exact hsame.wired (makingWired_of_not_making hpc.1) hs
  | @handler line pc hmain =>
    exact (SameHolders.control s _ s.workers _).wired
      (makingWired_of_not_making (not_making_inthandler s pc line)) hs
  | accept hmain => exact hs.makeSocket (hs.heldOnlyBy_next _)
  | socket hmain =>
    have hmaking := hs.making
    rw [MakingWired, hmain] at hmaking
    exact hs.makeSocket ⟨Nat.ne_of_lt hmaking.1, hmaking.makeSocket, hs.heldOnlyBy_next _⟩
  | connect hmain =>
    have hmaking := hs.making
    rw [MakingWired, hmain] at hmaking
    exact (SameHolders.setMain ..).wired hmaking hs
  | startT2 hmain =>
    have hmaking := hs.making
    rw [MakingWired, hmain] at hmaking
    obtain ⟨hne, hk, hv⟩ := hmaking
    exact hs.startThread hne.symm hv hk (fun h => absurd h (Nat.lt_irrefl _))
      ⟨hne, hk.startThread, hv.startThread, Nat.lt_succ_self _, by simp, by simp⟩
  | startT1 hmain =>
    have hmaking := hs.making
    rw [MakingWired, hmain] at hmaking
    obtain ⟨hne, hk, hv, -, hclient, hserver⟩ := hmaking
    exact hs.startThread hne hk hv (fun _ => ⟨hclient, hserver⟩) trivial
  | mainCall raises hmain hrun =>
    obtain ⟨x, rfl, -⟩ := Call.run_eq hrun
    refine (SameHolders.setSocket_setMain ..).wired (makingWired_of_not_making ?_) hs
    rw [State.setMain_main]
    split_ifs <;> exact id

/-- The threads hold the sockets as they should in every reachable state. -/
theorem reachable_wired {s : State} (hs : proxy.Reachable s) : Wired s := by
  refine hs.invariant (I := Wired) ?_ fun _ _ hstep hwired => (step_effect hstep).wired hwired
  exact ⟨nofun, nofun, nofun, nofun, nofun, nofun, trivial⟩

end Cheesecloth.Proxy
