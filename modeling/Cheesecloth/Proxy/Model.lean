import Mathlib.Logic.Function.Basic
import Mathlib.Tactic.Simps.Basic
import Cheesecloth.CodeLib.Lts

/-!
# The model of `scripts/proxy.py`

The relay that counts the bytes between the prover and the verifier.
`doProxyMain` accepts connections and starts two threads for each: one that
runs `worker(k, v, CLIENT2SERVER)` and one that runs
`worker(v, k, SERVER2CLIENT)`.

A state holds the globals, the sockets, the threads and the main thread.  A
step is one step of a thread or of the main thread, or a signal:

* `counter += len(b)` is a read of the global and then a write of it.
* `recv` and `send` are a call and its return.  In between the thread blocks,
  and the other threads go on.  The return carries what the environment chose:
  a chunk, the end of the stream, a number of accepted bytes, or an exception.
* `killp` makes four calls, one step each, and the first exception ends it.

The contract of the sockets is in the calls.  A call on a closed socket
raises, except that `close` does nothing there.  `send` raises on a socket that
was shut down.  `close` closes the socket even when it raises.

`signalhandler` assigns a local variable, so `running` stays as it is.
`inthandler` runs in the main thread, on top of whatever that was doing, and the
other threads run on meanwhile.  Each of its three `print`s reads the counters by
itself: the first two take a step each, the sum of the third a step for either of
its reads.  Then `sys.stdout.flush()` raises `NameError`, because `sys` is not
imported, and the exception surfaces where the main thread was interrupted.  The
handler can be interrupted in turn.
-/

namespace Cheesecloth.Proxy

open CodeLib

/-! ## Data -/

abbrev Byte := UInt8

/-- What `recv(1024)` returns before the end of the stream. -/
structure Chunk where
  bytes : List Byte
  ne_nil : bytes ≠ []
  length_le : bytes.length ≤ 1024
deriving DecidableEq

/-- `CLIENT2SERVER` and `SERVER2CLIENT`. -/
inductive Direction where
  | client2server
  | server2client
deriving DecidableEq

/-- A socket: whether `close` and `shutdown` have taken effect, the bytes that
`recv` has returned and the bytes that `send` has accepted. -/
structure Socket where
  closed : Bool := false
  shut : Bool := false
  rx : List Byte := []
  tx : List Byte := []
deriving DecidableEq

namespace Socket

@[simps]
def receive (x : Socket) (b : Chunk) : Socket := { x with rx := x.rx ++ b.bytes }

@[simps]
def accept (x : Socket) (bs : List Byte) : Socket := { x with tx := x.tx ++ bs }

@[simps]
def shutdown (x : Socket) : Socket := { x with shut := true }

@[simps]
def close (x : Socket) : Socket := { x with closed := true }

end Socket

/-- A call of `killp` on a socket. -/
inductive Call where
  | shutdown (i : Nat)
  | close (i : Nat)
deriving DecidableEq

/-- The calls of `killp(a, b)`. -/
def killp (a b : Nat) : List Call := [.shutdown a, .close a, .shutdown b, .close b]

/-- Where a worker is. -/
inductive Pc where
  /-- `while running == True`. -/
  | loop
  /-- `client.recv(1024)`, the call. -/
  | recv
  /-- `client.recv(1024)`, blocked. -/
  | receiving
  /-- The read of `counter += len(b)`. -/
  | read (b : Chunk)
  /-- The write of `counter += len(b)`, after `tmp` was read. -/
  | write (b : Chunk) (tmp : Nat)
  /-- `server.send(b)`, the call. -/
  | send (b : Chunk)
  /-- `server.send(b)`, blocked. -/
  | sending (b : Chunk)
  /-- `killp(client, server)`, with the calls still to make. -/
  | killp (calls : List Call)
  | returned
deriving DecidableEq

/-- A thread that runs `worker(client, server, direction)`. -/
structure Worker where
  client : Nat
  server : Nat
  direction : Direction
  pc : Pc
deriving DecidableEq

/-- An entry of `workers`. -/
structure Entry where
  t1 : Nat
  t2 : Nat
  k : Nat
  v : Nat
deriving DecidableEq

/-- Where `inthandler` is. -/
inductive Line where
  /-- The `print` of `c2s`. -/
  | c2s
  /-- The `print` of `s2c`. -/
  | s2c
  /-- The `print` of `c2s + s2c`, the read of `c2s`. -/
  | total
  /-- The read of `s2c`, after `tmp` was read, and the `print`. -/
  | sum (tmp : Nat)
  /-- `sys.stdout.flush()`. -/
  | flush
deriving DecidableEq

/-- Where the main thread is. -/
inductive MainPc where
  /-- The listening socket, up to `workers = []`. -/
  | setup
  /-- `s.accept()`. -/
  | accept
  /-- `v = socket.socket(...)`. -/
  | socket (k : Nat)
  /-- `v.connect(...)`. -/
  | connect (k v : Nat)
  /-- `t2.start()`. -/
  | startT2 (k v : Nat)
  /-- `t1.start()`. -/
  | startT1 (k v t2 : Nat)
  /-- `workers.append((t1,t2,k,v))`. -/
  | append (e : Entry)
  /-- `killp(k,v)` of the clean-up loop, with the calls still to make. -/
  | killp (calls : List Call) (e : Entry) (rest : List Entry)
  /-- `t1.join()`. -/
  | joinT1 (e : Entry) (rest : List Entry)
  /-- `t2.join()`. -/
  | joinT2 (e : Entry) (rest : List Entry)
  /-- `inthandler`, and the place where it was called. -/
  | handler (line : Line) (pc : MainPc)
  | returned
  /-- An exception has left `doProxyMain`. -/
  | crashed
deriving DecidableEq

/-- A figure that `inthandler` prints. -/
inductive Figure where
  | clientToServer (n : Nat)
  | serverToClient (n : Nat)
  | total (n : Nat)
deriving DecidableEq

structure State where
  running : Bool
  c2s : Nat
  s2c : Nat
  sock : Nat → Socket
  /-- The number of sockets made so far. -/
  socks : Nat
  thread : Nat → Worker
  /-- The number of threads started so far. -/
  threads : Nat
  workers : List Entry
  main : MainPc
  out : List Figure

/-- What the environment makes of a step. -/
inductive Outcome where
  | ok
  | data (b : Chunk)
  | eof
  | sent (n : Nat)
  | raises
deriving DecidableEq

inductive Action where
  | worker (t : Nat) (o : Outcome)
  | main (o : Outcome)
  | sigint
  | sigterm
deriving DecidableEq

/-! ## Updates -/

namespace State

@[simps running c2s s2c socks thread threads workers main out]
def setSocket (s : State) (i : Nat) (x : Socket) : State :=
  { s with sock := Function.update s.sock i x }

@[simps running c2s s2c sock socks threads workers main out]
def setPc (s : State) (t : Nat) (pc : Pc) : State :=
  { s with thread := Function.update s.thread t { s.thread t with pc := pc } }

@[simps]
def setMain (s : State) (pc : MainPc) : State := { s with main := pc }

@[simps]
def print (s : State) (f : Figure) : State := { s with out := s.out ++ [f] }

/-- The global that a direction counts in. -/
def counter (s : State) : Direction → Nat
  | .client2server => s.c2s
  | .server2client => s.s2c

@[simps]
def setCounter (s : State) (d : Direction) (n : Nat) : State :=
  { s with
    c2s := if d = .client2server then n else s.c2s
    s2c := if d = .server2client then n else s.s2c }

/-- A new socket, under the next number. -/
@[simps running c2s s2c socks thread threads workers main out]
def makeSocket (s : State) : State :=
  { s with sock := Function.update s.sock s.socks {}, socks := s.socks + 1 }

/-- `Thread(target=worker, args=(client, server, direction)).start()`. -/
@[simps running c2s s2c sock socks threads workers main out]
def startThread (s : State) (client server : Nat) (direction : Direction) : State :=
  { s with
    thread := Function.update s.thread s.threads ⟨client, server, direction, .loop⟩
    threads := s.threads + 1 }

end State

/-! ## Calls on sockets -/

/-- One call, which raises or not. -/
def Call.run (s : State) (raises : Bool) : Call → Option State
  | .shutdown i =>
    if raises then some s
    else if (s.sock i).closed then none
    else some (s.setSocket i (s.sock i).shutdown)
  | .close i =>
    if raises && (s.sock i).closed then none
    else some (s.setSocket i (s.sock i).close)

/-! ## The worker -/

/-- The worker after the calls of `killp` that are left. -/
def killpPc : List Call → Pc
  | [] => .returned
  | calls => .killp calls

/-- One step of the thread `t`. -/
def workerStep (s : State) (t : Nat) (o : Outcome) : Option State :=
  let w := s.thread t
  let client := s.sock w.client
  let server := s.sock w.server
  let leave := s.setPc t (killpPc (killp w.client w.server))
  match w.pc, o with
  | .loop, .ok => some (if s.running then s.setPc t .recv else leave)
  | .recv, .ok => some (if client.closed then leave else s.setPc t .receiving)
  | .receiving, .data b => some ((s.setSocket w.client (client.receive b)).setPc t (.read b))
  | .receiving, .eof => some leave
  | .receiving, .raises => some leave
  | .read b, .ok => some (s.setPc t (.write b (s.counter w.direction)))
  | .write b tmp, .ok =>
    some ((s.setCounter w.direction (tmp + b.bytes.length)).setPc t (.send b))
  | .send b, .ok =>
    some (if server.closed || server.shut then leave else s.setPc t (.sending b))
  | .sending b, .sent n =>
    -- The return value of `send` is dropped, and with it the rest of `b`.
    if 0 < n ∧ n ≤ b.bytes.length then
      some ((s.setSocket w.server (server.accept (b.bytes.take n))).setPc t .loop)
    else none
  | .sending _, .raises => some leave
  | .killp (c :: calls), .ok => (c.run s false).map (·.setPc t (killpPc calls))
  | .killp (c :: _), .raises => (c.run s true).map (·.setPc t .returned)
  | _, _ => none

/-! ## The main thread -/

/-- The clean-up loop over the rest of `workers`. -/
def cleanupPc : List Entry → MainPc
  | [] => .returned
  | e :: rest => .killp (killp e.k e.v) e rest

/-- The test of the accept loop. -/
def acceptLoop (s : State) : State :=
  s.setMain (if s.running then .accept else cleanupPc s.workers)

/-- Where an exception in the main thread goes.  Before `workers = []` the clean-up
loop finds `workers` unbound; in `killp` the exception is swallowed; in `join`
nothing catches it.  Once `doProxyMain` is left, the interpreter waits for the
threads. -/
def raisePc (workers : List Entry) : MainPc → MainPc
  | .setup | .joinT1 _ _ | .joinT2 _ _ => .crashed
  | .accept | .socket _ | .connect _ _ | .startT2 _ _ | .startT1 _ _ _ | .append _ =>
    cleanupPc workers
  | .killp _ e rest => .joinT1 e rest
  -- an interrupted handler has no handler of its own
  | .handler _ pc => raisePc workers pc
  | .returned => .returned
  | .crashed => .crashed

/-- An exception in the main thread. -/
def mainRaise (s : State) : State := s.setMain (raisePc s.workers s.main)

/-- One step of `inthandler`, which was called at `pc`. -/
def inthandler (s : State) (pc : MainPc) : Line → State
  | .c2s => (s.print (.clientToServer s.c2s)).setMain (.handler .s2c pc)
  | .s2c => (s.print (.serverToClient s.s2c)).setMain (.handler .total pc)
  | .total => s.setMain (.handler (.sum s.c2s) pc)
  | .sum tmp => (s.print (.total (tmp + s.s2c))).setMain (.handler .flush pc)
  | .flush => mainRaise s

/-- One step of the main thread. -/
def mainStep (s : State) (o : Outcome) : Option State :=
  match s.main, o with
  | .setup, .ok => some (acceptLoop { s with workers := [] })
  | .accept, .ok => some (s.makeSocket.setMain (.socket s.socks))
  | .socket k, .ok => some (s.makeSocket.setMain (.connect k s.socks))
  | .connect k v, .ok => some (s.setMain (.startT2 k v))
  | .startT2 k v, .ok =>
    some ((s.startThread v k .server2client).setMain (.startT1 k v s.threads))
  | .startT1 k v t2, .ok =>
    some ((s.startThread k v .client2server).setMain (.append ⟨s.threads, t2, k, v⟩))
  | .append e, .ok => some (acceptLoop { s with workers := s.workers ++ [e] })
  | .killp (c :: calls) e rest, .ok =>
    (c.run s false).map (·.setMain (if calls = [] then .joinT1 e rest else .killp calls e rest))
  | .killp (c :: _) e rest, .raises => (c.run s true).map (·.setMain (.joinT1 e rest))
  | .joinT1 e rest, .ok =>
    if (s.thread e.t1).pc = .returned then some (s.setMain (.joinT2 e rest)) else none
  | .joinT2 e rest, .ok =>
    if (s.thread e.t2).pc = .returned then some (s.setMain (cleanupPc rest)) else none
  | .handler line pc, .ok => some (inthandler s pc line)
  | .setup, .raises | .accept, .raises | .socket _, .raises | .connect _ _, .raises
  | .startT2 _ _, .raises | .startT1 _ _ _, .raises => some (mainRaise s)
  | _, _ => none

/-! ## Signals -/

/-- `signalhandler`: `running` is a local variable there. -/
def signalhandler (s : State) : State := s

/-- `SIGINT` calls `inthandler`. -/
def interrupt (s : State) : State := s.setMain (.handler .c2s s.main)

/-! ## The system -/

def step (s : State) : Action → Option State
  | .worker t o => if t < s.threads then workerStep s t o else none
  | .main o => mainStep s o
  | .sigint => some (interrupt s)
  | .sigterm => some (signalhandler s)

/-- The state in which `doProxyMain` has installed its handlers. -/
def init : State where
  running := true
  c2s := 0
  s2c := 0
  sock _ := {}
  socks := 0
  thread _ := ⟨0, 0, .client2server, .returned⟩
  threads := 0
  workers := []
  main := .setup
  out := []

/-- The relay. -/
def proxy : System State Action := ⟨init, step⟩

end Cheesecloth.Proxy
