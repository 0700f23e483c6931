import Mathlib.Logic.Function.Basic
import Muduo.Foundations.Runs
import Muduo.Net.TcpConnection

/-! # `TcpServer`: the life of its connections

How connections come and go in `muduo/net/TcpServer.cc`, `TcpConnection.cc` and
`poller/EpollPoller.cc`, across the base loop (number `0`) and the I/O loops. A `World` is the
server, its connections, and of every loop the pending functors, the `channels_` of its poller and
where its thread is. A connection is named by its number, and a freed one is `none`.

Each loop thread runs its functors in order and handles the close of a registered connection between
two functors; other threads call `shutdown()`. Where a function reads or writes what other threads
write (`state_`, the server) it is cut into several actions: `handleClose` before `closeCallback_`,
`connectDestroyed` and `shutdown` between the test of `state_` and the assignment, `~TcpServer` at
every connection. The server is destructed in its base loop, in none of its own callbacks. Where
that is a callback of another channel, `activeChannels_` may still hold an event for one of its
connections, which is removed by then: that event has no action here, and is the subject of
`DispatchLoop`. What an execution does to a connection is noted in the connection's history. -/

namespace Muduo

namespace Net

open Function (update)

/-- The order in which states are written in the source. -/
def State.rank : State → ℕ
  | .kConnecting => 0
  | .kConnected => 1
  | .kDisConnecting => 2
  | .kDisConnected => 3

/-- `Channel::index_`. -/
inductive Index
  | kNew
  | kAdded
  | kDeleted
deriving DecidableEq, Repr

/-- `Channel`. -/
structure Channel where
  /-- `fd_`. -/
  fd : ℕ
  /-- `events_`. -/
  events : ℕ
  /-- `index_`. -/
  index : Index
deriving DecidableEq, Repr

namespace Channel

/-- `kNoneEvent`. -/
def kNoneEvent : ℕ := 0

/-- `kReadEvent`: `POLLIN | POLLPRI`. -/
def kReadEvent : ℕ := 1 ||| 2

/-- `isNoneEvent()`. -/
def isNoneEvent (ch : Channel) : Bool := ch.events == kNoneEvent

end Channel

/-- The members of `TcpConnection` that its life depends on. -/
structure Connection where
  /-- `loop_`. -/
  loop : ℕ
  /-- `state_`. -/
  state : State
  /-- `*sockChannel_`. -/
  channel : Channel
deriving DecidableEq, Repr

namespace Connection

/-- `events_ = events`. -/
def setEvents (k : Connection) (events : ℕ) : Connection :=
  { k with channel := { k.channel with events := events } }

/-- `setIndex(index)`. -/
def setIndex (k : Connection) (index : Index) : Connection :=
  { k with channel := { k.channel with index := index } }

/-- `state_ = state`. -/
def setState (k : Connection) (state : State) : Connection := { k with state := state }

end Connection

/-- What is queued in a loop. `connectEstablished` and `shutdownInLoop` are bound to a raw pointer,
the other two to a `TcpConnectionPtr`. -/
inductive Functor
  | connectEstablished (c : ℕ)
  | shutdownInLoop (c : ℕ)
  | removeConnectionInLoop (c : ℕ)
  | connectDestroyed (c : ℕ)
deriving DecidableEq, Repr

/-- The functor holds a `TcpConnectionPtr` to `c`. -/
def Functor.holds (c : ℕ) : Functor → Bool
  | .removeConnectionInLoop d => d == c
  | .connectDestroyed d => d == c
  | _ => false

/-- Where a loop thread is. -/
inductive Pc
  | idle
  /-- In `handleClose`, before `closeCallback_`. -/
  | handleClose (c : ℕ)
  /-- In `connectDestroyed`, having read `kConnected`. -/
  | connectDestroyed (c : ℕ)
deriving DecidableEq, Repr

/-- The thread is in a member function of `c`, and holds a `TcpConnectionPtr`. -/
def Pc.holds (c : ℕ) : Pc → Bool
  | .idle => false
  | .handleClose d => d == c
  | .connectDestroyed d => d == c

/-- Whether the server is there, in its destructor, or gone. -/
inductive ServerPhase
  | alive
  | destructing
  | gone
deriving DecidableEq, Repr

/-- What is noted in the history of a connection. -/
inductive Event
  /-- `connectEstablished` is run, on an object that is owned by someone or not. -/
  | connectEstablished (live : Bool)
  /-- `state_` is written. -/
  | wrote (old new : State)
  /-- `closeCallback_` or `removeConnectionInLoop` is run, on a server that is there or not. -/
  | removeConnection (serverThere : Bool)
  /-- `connectDestroyed` is run. -/
  | connectDestroyed
  /-- The assertions of `removeChannel`: the fd is registered, for this channel, with no event. -/
  | removeChannel (found same noneEvent : Bool)
  /-- `~TcpConnection`, which closes the socket: `state_`, and whether the poller has the fd. -/
  | destructed (state : State) (inPoller : Bool)
deriving DecidableEq, Repr

/-- The server, the loops and the connections. -/
structure World where
  /-- The number of I/O loops. -/
  numThreads : ℕ
  /-- `threadPool_->next_`. -/
  next : ℕ
  /-- `nextConnId_`: the number of the next connection. -/
  nextConnId : ℕ
  /-- `connMap_`. -/
  connMap : List ℕ
  /-- Whether the server is there. -/
  server : ServerPhase
  /-- The connections that are not freed. -/
  conns : ℕ → Option Connection
  /-- `pendingFunctors_` of each loop. -/
  queue : ℕ → List Functor
  /-- `channels_` of each loop's poller: the connection whose channel an fd is registered for. -/
  channels : ℕ → ℕ → Option ℕ
  /-- Where each loop thread is. -/
  pc : ℕ → Pc
  /-- The `TcpConnectionPtr`s that callbacks keep. -/
  held : List ℕ
  /-- The calls of `shutdown()` that have read `kConnected` and not yet written. -/
  shutdowns : List ℕ
  /-- What has happened to each connection. -/
  history : ℕ → List Event

namespace World

/-- A server with `numThreads` I/O loops before the first connection. -/
def new (numThreads : ℕ) : World where
  numThreads := numThreads
  next := 0
  nextConnId := 1
  connMap := []
  server := .alive
  conns := fun _ => none
  queue := fun _ => []
  channels := fun _ _ => none
  pc := fun _ => .idle
  held := []
  shutdowns := []
  history := fun _ => []

variable (w : World)

/-- Someone holds a `TcpConnectionPtr` to `c`. -/
def referenced (c : ℕ) : Bool :=
  w.connMap.contains c || w.held.contains c || w.shutdowns.contains c ||
    (List.range (w.numThreads + 1)).any fun l => (w.queue l).any (Functor.holds c) || (w.pc l).holds c

/-- The thread of a loop is between two functors. The base loop's is not while it runs
`~TcpServer`. -/
def free (l : ℕ) : Bool := w.pc l == .idle && !(l == 0 && w.server == .destructing)

/-- The event `e` happens to `c`. -/
def note (c : ℕ) (e : Event) : World :=
  { w with history := update w.history c (w.history c ++ [e]) }

/-- `queueInLoop(f)` on the loop `l`. -/
def queueInLoop (l : ℕ) (f : Functor) : World :=
  { w with queue := update w.queue l (w.queue l ++ [f]) }

/-- The thread of the loop `l` is now at `p`. -/
def setPc (l : ℕ) (p : Pc) : World := { w with pc := update w.pc l p }

/-- The members of the connection `c` are now `k`. -/
def setConn (c : ℕ) (k : Connection) : World := { w with conns := update w.conns c (some k) }

/-- `channels_[fd]` of the poller of `l` is now `x`. -/
def setChannel (l fd : ℕ) (x : Option ℕ) : World :=
  { w with channels := update w.channels l (update (w.channels l) fd x) }

/-- `updateChannel(channel)` for the connection `c`, which is now `k`. -/
def updateChannel (c : ℕ) (k : Connection) : World :=
  match k.channel.index with
  | .kNew => (w.setChannel k.loop k.channel.fd (some c)).setConn c (k.setIndex .kAdded)
  -- `channels_` still has the fd
  | .kDeleted => w.setConn c (k.setIndex .kAdded)
  | .kAdded => w.setConn c (if k.channel.isNoneEvent then k.setIndex .kDeleted else k)

/-- `removeChannel(channel)` for the connection `c`, which is `k`. -/
def removeChannel (c : ℕ) (k : Connection) : World :=
  let x := w.channels k.loop k.channel.fd
  ((w.note c (.removeChannel x.isSome (x == some c) k.channel.isNoneEvent)).setChannel k.loop
    k.channel.fd none).setConn c (k.setIndex .kNew)

/-- `connectEstablished()` of `c`. A freed object is not followed any further. -/
def connectEstablished (c : ℕ) : World :=
  match w.conns c with
  | none => w.note c (.connectEstablished false)
  | some k => ((w.note c (.connectEstablished (w.referenced c))).note c
      (.wrote k.state .kConnected)).updateChannel c
        ((k.setState .kConnected).setEvents (k.channel.events ||| Channel.kReadEvent))

/-- `connectDestroyed()` of `c`, which is `k`, up to the assignment of `state_` if `state_` is
`kConnected`. -/
def connectDestroyed (c : ℕ) (k : Connection) : World :=
  let w := w.note c .connectDestroyed
  if k.state = .kConnected then w.setPc k.loop (.connectDestroyed c) else w.removeChannel c k

/-- `state_=kDisConnected; sockChannel_->disableAll();` -/
def disconnect (c : ℕ) (k : Connection) : World :=
  (w.note c (.wrote k.state .kDisConnected)).updateChannel c
    ((k.setState .kDisConnected).setEvents Channel.kNoneEvent)

/-- `removeConnectionInLoop(conn)`. A server that is not there is not followed any further. -/
def removeConnectionInLoop (c : ℕ) (k : Connection) : World :=
  let w := w.note c (.removeConnection (w.server == .alive))
  if w.server = .alive then
    ({ w with connMap := w.connMap.erase c }).queueInLoop k.loop (.connectDestroyed c)
  else w

/-- `removeConnection(conn)` in the thread of the connection's loop. -/
def removeConnection (c : ℕ) (k : Connection) : World :=
  let w := w.note c (.removeConnection (w.server != .gone))
  if w.server = .gone then w
  -- `runInLoop` calls at once in the loop's own thread
  else if k.loop = 0 then w.removeConnectionInLoop c k
  else w.queueInLoop 0 (.removeConnectionInLoop c)

/-- `threadPool_->getNextLoop()`: the loop, and `next_`. -/
def getNextLoop : ℕ × ℕ :=
  if w.numThreads = 0 then (0, w.next)
  else (w.next + 1, if w.next + 1 ≥ w.numThreads then 0 else w.next + 1)

/-- The kernel has not given the fd to an open socket. -/
def unused (fd : ℕ) : Bool :=
  (List.range w.nextConnId).all fun c => (w.conns c).all fun k => k.channel.fd != fd

/-- `newConnection(sockfd, addr)`. -/
def newConnection (sockfd : ℕ) : World :=
  let c := w.nextConnId
  let (ioloop, next) := w.getNextLoop
  -- the name, with the number in it, is new in `connMap_`
  let w := ({ w with next := next, nextConnId := c + 1, connMap := w.connMap ++ [c] }).setConn c
    ⟨ioloop, .kConnecting, ⟨sockfd, Channel.kNoneEvent, .kNew⟩⟩
  if ioloop = 0 then w.connectEstablished c else w.queueInLoop ioloop (.connectEstablished c)

/-- A functor is run in the thread of its loop. `shutdownInLoop` only shuts the socket down. -/
def runFunctor (f : Functor) : Option World :=
  match f with
  | .connectEstablished c => some (w.connectEstablished c)
  | .shutdownInLoop _ => some w
  | .removeConnectionInLoop c => (w.conns c).map (w.removeConnectionInLoop c)
  | .connectDestroyed c => (w.conns c).map (w.connectDestroyed c)

/-- `~TcpServer` comes to the connection `c`, which is `k`. -/
def destructNext (c : ℕ) (k : Connection) : World :=
  let w : World := { w with connMap := w.connMap.erase c }
  if k.loop = 0 then w.connectDestroyed c k else w.queueInLoop k.loop (.connectDestroyed c)

/-- What can happen. -/
inductive Action
  | newConnection (sockfd : ℕ)
  /-- The loop runs its next functor. -/
  | runFunctor (l : ℕ)
  /-- The peer has closed, and the loop of `c` calls `handleClose`. -/
  | handleClose (c : ℕ)
  /-- `handleClose` goes on with `closeCallback_`. -/
  | closeCallback (c : ℕ)
  /-- `connectDestroyed` goes on, having read `kConnected`. -/
  | connectDestroyed (c : ℕ)
  /-- Any thread calls `shutdown()`. -/
  | shutdown (c : ℕ)
  /-- `shutdown()` goes on, having read `kConnected`, in the thread of the loop or not. -/
  | shutdownWrite (c : ℕ) (inLoop : Bool)
  | destructServer
  /-- `~TcpServer` goes through `connMap_`, in the order of the names. -/
  | destructNext (c : ℕ)
  /-- `~TcpServer` returns. With I/O loops it never does: `~EventLoopThread` joins a thread that is
  in the `while (1)` of `loop()`, which does not look at `quit_`. -/
  | destructEnd
  /-- A callback keeps a `TcpConnectionPtr`. -/
  | hold (c : ℕ)
  | release (c : ℕ)
  /-- The last `TcpConnectionPtr` is gone. -/
  | destruct (c : ℕ)
deriving DecidableEq, Repr

/-- One action. -/
def step : Action → Option World
  | .newConnection sockfd =>
    if w.server = .alive ∧ w.free 0 ∧ w.unused sockfd then some (w.newConnection sockfd) else none
  | .runFunctor l =>
    match w.queue l with
    | [] => none
    | f :: rest =>
      if w.free l then ({ w with queue := update w.queue l rest }).runFunctor f else none
  | .handleClose c => (w.conns c).bind fun k =>
    if w.free k.loop ∧ w.channels k.loop k.channel.fd = some c ∧ k.channel.index = .kAdded then
      some ((w.disconnect c k).setPc k.loop (.handleClose c))
    else none
  | .closeCallback c => (w.conns c).bind fun k =>
    if w.pc k.loop = .handleClose c then some ((w.setPc k.loop .idle).removeConnection c k) else none
  | .connectDestroyed c => (w.conns c).bind fun k =>
    if w.pc k.loop = .connectDestroyed c then
      let w := (w.setPc k.loop .idle).disconnect c k
      (w.conns c).map (w.removeChannel c)
    else none
  | .shutdown c => (w.conns c).bind fun k =>
    -- the caller has a pointer
    if w.referenced c then
      some (if k.state = .kConnected then { w with shutdowns := c :: w.shutdowns } else w)
    else none
  | .shutdownWrite c inLoop => (w.conns c).bind fun k =>
    if c ∈ w.shutdowns then
      let w := (({ w with shutdowns := w.shutdowns.erase c }).note c
        (.wrote k.state .kDisConnecting)).setConn c (k.setState .kDisConnecting)
      some (if inLoop then w else w.queueInLoop k.loop (.shutdownInLoop c))
    else none
  | .destructServer =>
    if w.server = .alive ∧ w.free 0 then some { w with server := .destructing } else none
  | .destructNext c => (w.conns c).bind fun k =>
    if w.server = .destructing ∧ w.pc 0 = .idle ∧ c ∈ w.connMap then some (w.destructNext c k)
    else none
  | .destructEnd =>
    if w.server = .destructing ∧ w.pc 0 = .idle ∧ w.connMap = [] ∧ w.numThreads = 0 then
      some { w with server := .gone }
    else none
  | .hold c =>
    if w.referenced c then some { w with held := c :: w.held } else none
  | .release c =>
    if c ∈ w.held then some { w with held := w.held.erase c } else none
  | .destruct c => (w.conns c).bind fun k =>
    if w.referenced c then none
    else some ({ w with conns := update w.conns c none }.note c
      (.destructed k.state (w.channels k.loop k.channel.fd == some c)))

end World

end Net

end Muduo
