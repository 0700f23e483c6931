import Mathlib.Logic.Function.Basic
import Muduo.Net.TcpOutput

/-! # `TcpConnection::shutdown`

`send` and `shutdown` may be called from any thread. Both look at `state_` in the calling thread,
and do the rest in the loop thread: at once if this is the calling thread, and else by a functor
that is queued. `SharedSender` is a connection whose `send` and `shutdown` are taken apart at the
points where another thread may come in between.

`send(Buffer*)` does not queue anything: called by another thread it runs `sendInLoop` there, and
`assertInLoopThread` lets it. It is one action here. In the code its statements race with those of
the loop thread, so that nothing is claimed of the output of a run in which this happens.

`shutdownInLoop` shuts down the write side of the socket if the channel is not writing. While output
is pending it does nothing, and `handleWrite` does not come back to it. `completed_of_prompt` states
that a shutdown is completed, once, if `shutdownInLoop` never runs while the channel is writing and
no two calls of `shutdown` overlap. -/

namespace Muduo

namespace Net

/-- A functor of the connection in `pendingFunctors_`. -/
inductive SendFunctor
  /-- From `send(const void*, size_t)` and `send(const char*)`. What is bound is `buf` and `len`: the
  bytes are read when the functor runs. The memory in `m` is that of the call. -/
  | sendInLoop (m : Message)
  /-- From `send(const std::string&)`. The string is bound. -/
  | sendInLoopAsString (m : Message)
  | shutdownInLoop

/-- Which `send` is called. -/
inductive Overload
  /-- `send(Buffer*)`, which does not queue. -/
  | buffer
  /-- `send(const std::string&)`. -/
  | string
  /-- `send(const void*, size_t)` and `send(const char*)`. -/
  | bytes
deriving DecidableEq, Repr

/-- Where a thread is in `send` and `shutdown`. -/
inductive Call
  /-- In none of them. -/
  | idle
  /-- In `send`, after its check of `state_`. -/
  | sending (overload : Overload) (m : Message)
  /-- In `shutdown`, after its check of `state_`. -/
  | shuttingDown
  /-- In `shutdown`, after `state_=kDisConnecting`. -/
  | disconnecting

/-- A connection that is used by several threads. -/
structure SharedSender where
  /-- The connection. -/
  sender : Sender
  /-- The thread of its loop. -/
  threadId : ℕ
  /-- Where the threads are. -/
  calls : ℕ → Call
  /-- The functors of the connection that are queued. -/
  functors : List SendFunctor
  /-- The number of calls of `socket_->shutdownWrite()`. -/
  shutdownWrites : ℕ
  /-- The messages that were sent in the loop thread, each with the number of bytes in front of it
  in the output. -/
  carried : List (ℕ × Bytes)
  /-- The messages that passed the check of `send` and were then discarded. -/
  dropped : List Bytes

/-- The functor calls `shutdownInLoop`. -/
def SendFunctor.isShutdown : SendFunctor → Bool
  | .shutdownInLoop => true
  | _ => false

/-- The thread has set `state_`, and has not called `runInLoop`. -/
def Call.isDisconnecting : Call → Bool
  | .disconnecting => true
  | _ => false

/-- The functor that `send` queues. -/
def Overload.functor (m : Message) : Overload → SendFunctor
  | .string => .sendInLoopAsString m
  | _ => .sendInLoop m

namespace SharedSender

/-- A connection after `connectEstablished`. -/
def established (threadId : ℕ) (callback : Bool) : SharedSender where
  sender := .established callback
  threadId := threadId
  calls := fun _ => .idle
  functors := []
  shutdownWrites := 0
  carried := []
  dropped := []

/-- The thread goes on to `c`. -/
def goTo (s : SharedSender) (tid : ℕ) (c : Call) : SharedSender :=
  { s with calls := Function.update s.calls tid c }

/-- `send`, up to its check of `state_`. -/
def send (s : SharedSender) (tid : ℕ) (overload : Overload) (m : Message) : Option SharedSender :=
  match s.calls tid with
  | .idle =>
    if s.sender.conn.state = .kConnected then some (s.goTo tid (.sending overload m)) else some s
  | _ => none

/-- `sendInLoop` and `sendInLoopAsString`, where the memory is `mem` by now: they check `state_`
again. -/
def sendInLoop (s : SharedSender) (m : Message) (mem : Memory) (r : Written) :
    Option SharedSender :=
  if s.sender.conn.state = .kConnected then
    (s.sender.send { m with mem := mem } r).map fun t =>
      { s with sender := t, carried := s.carried ++ [(t.stream.length - m.len, m.bytes)] }
  else some { s with dropped := s.dropped ++ [m.bytes] }

/-- `send` after its check. -/
def sendOn (s : SharedSender) (tid : ℕ) (r : Written) : Option SharedSender :=
  match s.calls tid with
  | .sending overload m =>
    if tid = s.threadId ∨ overload = .buffer then (s.goTo tid .idle).sendInLoop m m.mem r
    else some { s.goTo tid .idle with functors := s.functors ++ [overload.functor m] }
  | _ => none

/-- `shutdown`, up to its check of `state_`. -/
def shutdown (s : SharedSender) (tid : ℕ) : Option SharedSender :=
  match s.calls tid with
  | .idle => if s.sender.conn.state = .kConnected then some (s.goTo tid .shuttingDown) else some s
  | _ => none

/-- `state_=kDisConnecting`. -/
def disconnect (s : SharedSender) (tid : ℕ) : Option SharedSender :=
  match s.calls tid with
  | .shuttingDown => some { s.goTo tid .disconnecting with
      sender := { s.sender with conn := { s.sender.conn with state := .kDisConnecting } } }
  | _ => none

/-- `shutdownInLoop`. -/
def shutdownInLoop (s : SharedSender) : SharedSender :=
  if s.sender.conn.writing = false then { s with shutdownWrites := s.shutdownWrites + 1 } else s

/-- The `runInLoop` of `shutdown`. -/
def shutdownOn (s : SharedSender) (tid : ℕ) : Option SharedSender :=
  match s.calls tid with
  | .disconnecting =>
    if tid = s.threadId then some (s.goTo tid .idle).shutdownInLoop
    else some { s.goTo tid .idle with functors := s.functors ++ [.shutdownInLoop] }
  | _ => none

/-- The loop thread is not in `send` or `shutdown`. -/
def LoopIdle (s : SharedSender) : Bool := s.calls s.threadId matches .idle

/-- The next functor is run, where the memory is `mem` by now. -/
def runFunctor (s : SharedSender) (mem : Memory) (r : Written) : Option SharedSender :=
  if s.LoopIdle && s.sender.frames.isEmpty then
    match s.functors with
    | [] => none
    | .sendInLoop m :: functors => { s with functors := functors }.sendInLoop m mem r
    | .sendInLoopAsString m :: functors => { s with functors := functors }.sendInLoop m m.mem r
    | .shutdownInLoop :: functors => some { s with functors := functors }.shutdownInLoop
  else none

/-- The loop thread does something else with the connection. -/
def act (s : SharedSender) (a : Sender.Action) : Option SharedSender :=
  if s.LoopIdle then (s.sender.step a).map fun t => { s with sender := t } else none

/-- What the threads can do. -/
inductive Action
  | send (tid : ℕ) (overload : Overload) (m : Message)
  | sendOn (tid : ℕ) (r : Written)
  | shutdown (tid : ℕ)
  | disconnect (tid : ℕ)
  | shutdownOn (tid : ℕ)
  | runFunctor (mem : Memory) (r : Written)
  | handleWrite (r : Written)
  | sendFile (file : File) (r : Written)
  | setWriteCompleteCallback (on : Bool)
  | callbackReturns

/-- One action. -/
def step (s : SharedSender) : Action → Option SharedSender
  | .send tid overload m => s.send tid overload m
  | .sendOn tid r => s.sendOn tid r
  | .shutdown tid => s.shutdown tid
  | .disconnect tid => s.disconnect tid
  | .shutdownOn tid => s.shutdownOn tid
  | .runFunctor mem r => s.runFunctor mem r
  | .handleWrite r => s.act (.handleWrite r)
  | .sendFile file r => s.act (.sendFile file r)
  | .setWriteCompleteCallback on => s.act (.setWriteCompleteCallback on)
  | .callbackReturns => s.act .callbackReturns

end SharedSender

/-! ## Only `shutdown` changes the state -/

namespace Sender

variable {s t : Sender}

/-- No action in the loop changes `state_`. -/
theorem state_of_step {a : Action} (hspent : s.Spent) (h : s.step a = some t) :
    t.conn.state = s.conn.state := by
  cases a with
  | send m r => cases sends h <;> simp [buffer, enableWriting]
  | sendFile file r => cases sendsFile h <;> simp
  | setWriteCompleteCallback on =>
    cases h
    rfl
  | handleWrite r =>
    rw [Sender.step] at h
    split_ifs at h
    cases writes h <;> simp
  | callbackReturns =>
    obtain ⟨f, -, ht⟩ := hspent.callbackReturns h
    rw [ht]

end Sender

namespace SharedSender

variable {s t : SharedSender}

/-! ## What an action leaves alone -/

/-- The threads that have set `state_` and have still to call `runInLoop`. -/
def disconnecting (s : SharedSender) (tid : ℕ) : Bool := (s.calls tid).isDisconnecting

/-- How many calls of `shutdownInLoop` are queued. -/
def queued (s : SharedSender) : ℕ := s.functors.countP SendFunctor.isShutdown

theorem goTo_calls_of_ne (s : SharedSender) {tid tid' : ℕ} (h : tid' ≠ tid) (c : Call) :
    (s.goTo tid c).calls tid' = s.calls tid' :=
  Function.update_of_ne h ..

theorem goTo_calls_self (s : SharedSender) (tid : ℕ) (c : Call) : (s.goTo tid c).calls tid = c :=
  Function.update_self ..

theorem goTo_disconnecting (s : SharedSender) (tid : ℕ) (c : Call) :
    (s.goTo tid c).disconnecting = Function.update s.disconnecting tid c.isDisconnecting := by
  funext tid'
  simp only [disconnecting, goTo, Function.update_apply]
  split_ifs <;> rfl

/-- A thread that is not between `state_=kDisConnecting` and `runInLoop` does not come there. -/
theorem goTo_disconnecting_eq {tid : ℕ} {c : Call} (hc : c.isDisconnecting = false)
    (h : s.disconnecting tid = false) : (s.goTo tid c).disconnecting = s.disconnecting := by
  rw [goTo_disconnecting, hc, ← h, Function.update_eq_self]

/-- An action that has nothing to do with a shutdown. -/
structure Aside (s t : SharedSender) : Prop where
  spent : t.sender.Spent
  state : t.sender.conn.state = s.sender.conn.state
  disconnecting : t.disconnecting = s.disconnecting
  queued : t.queued = s.queued
  shutdownWrites : t.shutdownWrites = s.shutdownWrites

theorem Aside.goTo (hspent : s.sender.Spent) {tid : ℕ} {c : Call} (hc : c.isDisconnecting = false)
    (h : s.disconnecting tid = false) : Aside s (s.goTo tid c) :=
  ⟨hspent, rfl, goTo_disconnecting_eq hc h, rfl, rfl⟩

theorem Aside.sendInLoop (hspent : s.sender.Spent) {m : Message} {mem : Memory}
    {r : Written} (h : s.sendInLoop m mem r = some t) : Aside s t := by
  rw [SharedSender.sendInLoop] at h
  split_ifs at h
  · obtain ⟨u, hu, rfl⟩ := Option.map_eq_some_iff.mp h
    have hu : s.sender.step (.send { m with mem := mem } r) = some u := hu
    exact ⟨hspent.step hu, Sender.state_of_step hspent hu, rfl, rfl, rfl⟩
  · cases h
    exact ⟨hspent, rfl, rfl, rfl, rfl⟩

theorem Aside.act (hspent : s.sender.Spent) {a : Sender.Action} (h : s.act a = some t) :
    Aside s t := by
  rw [SharedSender.act] at h
  split_ifs at h
  obtain ⟨u, hu, rfl⟩ := Option.map_eq_some_iff.mp h
  exact ⟨hspent.step hu, Sender.state_of_step hspent hu, rfl, rfl, rfl⟩

theorem Aside.trans {u : SharedSender} (h : Aside s t) (h' : Aside t u) : Aside s u :=
  ⟨h'.spent, h'.state.trans h.state, h'.disconnecting.trans h.disconnecting,
    h'.queued.trans h.queued, h'.shutdownWrites.trans h.shutdownWrites⟩

theorem Aside.send (hspent : s.sender.Spent) {tid : ℕ} {overload : Overload} {m : Message}
    (h : s.send tid overload m = some t) : Aside s t := by
  rw [SharedSender.send] at h
  split at h
  · next hidle =>
    split_ifs at h
    · cases h
      exact .goTo hspent rfl (by rw [SharedSender.disconnecting, hidle]; rfl)
    · cases h
      exact ⟨hspent, rfl, rfl, rfl, rfl⟩
  · cases h

theorem Aside.shutdown (hspent : s.sender.Spent) {tid : ℕ} (h : s.shutdown tid = some t) :
    Aside s t := by
  rw [SharedSender.shutdown] at h
  split at h
  · next hidle =>
    split_ifs at h
    · cases h
      exact .goTo hspent rfl (by rw [SharedSender.disconnecting, hidle]; rfl)
    · cases h
      exact ⟨hspent, rfl, rfl, rfl, rfl⟩
  · cases h

theorem Aside.sendOn (hspent : s.sender.Spent) {tid : ℕ} {r : Written}
    (h : s.sendOn tid r = some t) : Aside s t := by
  rw [SharedSender.sendOn] at h
  split at h
  · next overload m hsending =>
    have hgo : Aside s (s.goTo tid .idle) :=
      .goTo hspent rfl (by rw [SharedSender.disconnecting, hsending]; rfl)
    split_ifs at h
    · exact hgo.trans (.sendInLoop hgo.spent h)
    · cases h
      refine ⟨hspent, rfl, hgo.disconnecting, ?_, rfl⟩
      -- what is queued is no shutdown
      have hnot : (overload.functor m).isShutdown = false := by cases overload <;> rfl
      simp [SharedSender.queued, hnot]
  · cases h

/-! ## How far a shutdown is -/

/-- The stages of a shutdown: the state, the threads that have still to call `runInLoop`, the number
of calls of `shutdownInLoop` that are queued, and the number of calls of `shutdownWrite`. -/
inductive Stage : State → (ℕ → Bool) → ℕ → ℕ → Prop
  /-- No thread has set `state_`. -/
  | connected : Stage .kConnected (fun _ => false) 0 0
  /-- One thread has set `state_`. -/
  | disconnecting (tid : ℕ) : Stage .kDisConnecting (Function.update (fun _ => false) tid true) 0 0
  /-- `shutdownInLoop` is queued. -/
  | queued : Stage .kDisConnecting (fun _ => false) 1 0
  /-- `shutdownWrite` has been called. -/
  | done : Stage .kDisConnecting (fun _ => false) 0 1

section Stage

variable {state : State} {D : ℕ → Bool} {q w : ℕ}

theorem Stage.of_connected (h : Stage .kConnected D q w) :
    D = (fun _ => false) ∧ q = 0 ∧ w = 0 := by
  cases h
  exact ⟨rfl, rfl, rfl⟩

/-- A thread that has still to call `runInLoop` is the only one. -/
theorem Stage.of_disconnecting (h : Stage state D q w) {tid : ℕ} (hD : D tid = true) :
    state = .kDisConnecting ∧ D = Function.update (fun _ => false) tid true ∧ q = 0 ∧ w = 0 := by
  cases h with
  | disconnecting tid' =>
    rw [Function.update_apply] at hD
    split_ifs at hD with heq
    subst heq
    exact ⟨rfl, rfl, rfl, rfl⟩
  | _ => cases hD

/-- A `shutdownInLoop` that is queued is the only one. -/
theorem Stage.of_queued (h : Stage state D q w) (hq : 0 < q) :
    state = .kDisConnecting ∧ D = (fun _ => false) ∧ q = 1 ∧ w = 0 := by
  cases h with
  | queued => exact ⟨rfl, rfl, rfl, rfl⟩
  | _ => exact absurd hq (lt_irrefl 0)

end Stage

/-- The invariant: the calls that wait have nothing left to do, and a shutdown is at one of its
stages. -/
structure Graceful (s : SharedSender) : Prop where
  spent : s.sender.Spent
  stage : Stage s.sender.conn.state s.disconnecting s.queued s.shutdownWrites

theorem Graceful.of_stage {state : State} {D : ℕ → Bool} {q w : ℕ} (h : Stage state D q w)
    (hspent : s.sender.Spent) (hstate : s.sender.conn.state = state) (hD : s.disconnecting = D)
    (hq : s.queued = q) (hw : s.shutdownWrites = w) : s.Graceful := by
  subst hstate hD hq hw
  exact ⟨hspent, h⟩

theorem graceful_established (threadId : ℕ) (callback : Bool) :
    (established threadId callback).Graceful :=
  ⟨Sender.spent_established callback, .connected⟩

theorem Graceful.aside (h : s.Graceful) (ha : Aside s t) : t.Graceful := by
  refine ⟨ha.spent, ?_⟩
  rw [ha.state, ha.disconnecting, ha.queued, ha.shutdownWrites]
  exact h.stage

/-- The actions that complete a shutdown: `state_` is set by one thread only, and `shutdownInLoop`
runs while the channel is not writing. -/
def Prompt (s : SharedSender) : Action → Prop
  | .disconnect _ => s.sender.conn.state = .kConnected
  | .shutdownOn tid => tid = s.threadId → s.sender.conn.writing = false
  | .runFunctor .. => (∃ f ∈ s.functors.head?, f.isShutdown = true) → s.sender.conn.writing = false
  | _ => True

instance (s : SharedSender) : ∀ a, Decidable (s.Prompt a)
  | .disconnect _ => inferInstanceAs (Decidable (s.sender.conn.state = .kConnected))
  | .shutdownOn _ => inferInstanceAs (Decidable (_ = _ → _ = _))
  | .runFunctor .. => inferInstanceAs (Decidable ((∃ f ∈ s.functors.head?, _ = _) → _ = _))
  | .send .. | .sendOn .. | .shutdown _ | .handleWrite _ | .sendFile .. | .callbackReturns |
      .setWriteCompleteCallback _ =>
    inferInstanceAs (Decidable True)

/-- A thread sets `state_`, which was `kConnected`. -/
theorem Graceful.disconnect (h : s.Graceful) {tid : ℕ} (hstate : s.sender.conn.state = .kConnected)
    (hs : s.disconnect tid = some t) : t.Graceful := by
  rw [SharedSender.disconnect] at hs
  split at hs
  · cases hs
    have hstage := h.stage
    rw [hstate] at hstage
    obtain ⟨hD, hq, hw⟩ := hstage.of_connected
    refine .of_stage (.disconnecting tid) h.spent rfl ?_ hq hw
    rw [← hD]
    exact goTo_disconnecting s tid .disconnecting
  · cases hs

/-- While the channel is not writing, `shutdownInLoop` calls `shutdownWrite`. -/
theorem shutdownInLoop_of_off (h : s.sender.conn.writing = false) :
    s.shutdownInLoop = { s with shutdownWrites := s.shutdownWrites + 1 } :=
  if_pos h

/-- The thread that has set `state_` calls `runInLoop`. -/
theorem Graceful.shutdownOn (h : s.Graceful) {tid : ℕ}
    (hwriting : tid = s.threadId → s.sender.conn.writing = false)
    (hs : s.shutdownOn tid = some t) : t.Graceful := by
  rw [SharedSender.shutdownOn] at hs
  split at hs
  · next hcall =>
    have htid : s.disconnecting tid = true := by
      rw [SharedSender.disconnecting, hcall]
      rfl
    obtain ⟨hstate, hD, hq, hw⟩ := h.stage.of_disconnecting htid
    have hnone : (s.goTo tid .idle).disconnecting = fun _ => false := by
      rw [goTo_disconnecting, hD, Function.update_idem]
      exact Function.update_eq_self tid (fun _ => false)
    split_ifs at hs with hloop
    · -- the thread is that of the loop
      have hoff : (s.goTo tid .idle).sender.conn.writing = false := hwriting hloop
      rw [shutdownInLoop_of_off hoff] at hs
      cases hs
      exact .of_stage .done h.spent hstate hnone hq (congrArg (· + 1) hw)
    · -- the functor is queued
      cases hs
      refine .of_stage .queued h.spent hstate hnone ?_ hw
      rw [SharedSender.queued, List.countP_append]
      exact congrArg (· + 1) hq
  · cases hs

/-- A functor is run. -/
theorem Graceful.runFunctor (h : s.Graceful) {mem : Memory} {r : Written}
    (hwriting : (∃ f ∈ s.functors.head?, f.isShutdown = true) → s.sender.conn.writing = false)
    (hs : s.runFunctor mem r = some t) : t.Graceful := by
  rw [SharedSender.runFunctor] at hs
  split_ifs at hs
  split at hs
  · cases hs
  · next m functors hf =>
    refine h.aside (.trans (t := { s with functors := functors }) ?_ (.sendInLoop h.spent hs))
    exact ⟨h.spent, rfl, rfl, by simp [SharedSender.queued, hf, SendFunctor.isShutdown], rfl⟩
  · next m functors hf =>
    refine h.aside (.trans (t := { s with functors := functors }) ?_ (.sendInLoop h.spent hs))
    exact ⟨h.spent, rfl, rfl, by simp [SharedSender.queued, hf, SendFunctor.isShutdown], rfl⟩
  · next functors hf =>
    -- the one `shutdownInLoop` that is queued
    have hoff := hwriting ⟨.shutdownInLoop, by rw [hf]; rfl, rfl⟩
    have hcount : s.queued = functors.countP SendFunctor.isShutdown + 1 := by
      rw [SharedSender.queued, hf]
      exact List.countP_cons_of_pos rfl
    obtain ⟨hstate, hD, hq, hw⟩ := h.stage.of_queued (by omega)
    rw [shutdownInLoop_of_off (s := { s with functors := functors }) hoff] at hs
    cases hs
    refine .of_stage .done h.spent hstate hD ?_ (congrArg (· + 1) hw)
    exact Nat.succ_injective (hcount.symm.trans hq)

/-- **One action.** -/
theorem Graceful.step (h : s.Graceful) {a : Action} (ha : s.Prompt a) (hs : s.step a = some t) :
    t.Graceful := by
  cases a with
  | send tid overload m => exact h.aside (.send h.spent hs)
  | sendOn tid r => exact h.aside (.sendOn h.spent hs)
  | shutdown tid => exact h.aside (.shutdown h.spent hs)
  | disconnect tid => exact h.disconnect ha hs
  | shutdownOn tid => exact h.shutdownOn ha hs
  | runFunctor mem r => exact h.runFunctor ha hs
  | handleWrite r => exact h.aside (.act h.spent hs)
  | sendFile file r => exact h.aside (.act h.spent hs)
  | setWriteCompleteCallback on => exact h.aside (.act h.spent hs)
  | callbackReturns => exact h.aside (.act h.spent hs)

/-! ## When a shutdown is completed -/

/-- No thread is in a call, and no functor of the connection is queued. -/
def Quiet (s : SharedSender) : Prop := (∀ tid, s.calls tid = .idle) ∧ s.functors = []

/-- What `shutdown` promises of a state: once nothing is left to do and nothing is pending, the
write side has been shut down, exactly once. -/
def Completed (s : SharedSender) : Prop :=
  s.Quiet → s.sender.conn.state = .kDisConnecting → s.sender.conn.outputBuffer.bytes = [] →
    s.sender.conn.writing = false → s.shutdownWrites = 1

theorem Graceful.completed (h : s.Graceful) : s.Completed := by
  intro ⟨hcalls, hfunctors⟩ hstate _ _
  have hD (tid : ℕ) : s.disconnecting tid = false := by
    rw [SharedSender.disconnecting, hcalls]
    rfl
  have hq : s.queued = 0 := by rw [SharedSender.queued, hfunctors, List.countP_nil]
  have hstage := h.stage
  rw [hstate, hq, show s.disconnecting = fun _ => false from funext hD] at hstage
  generalize hw : s.shutdownWrites = w at hstage
  generalize hfun : (fun _ : ℕ => false) = D at hstage
  -- of the stages in this state, only the last has nothing left to do
  cases hstage with
  | disconnecting tid =>
    have := congrFun hfun tid
    rw [Function.update_self] at this
    cases this
  | done => rfl

/-- **When a graceful shutdown is completed.** In every run of sends, shutdowns and write events, by
any threads, in which `shutdownInLoop` runs only while the channel is not writing, and `state_` is
set to `kDisConnecting` only while it is `kConnected`: whenever all calls have returned and nothing
is pending, `shutdownWrite` has been called exactly once. -/
theorem completed_of_prompt {threadId : ℕ} {callback : Bool} {as : List Action}
    (hg : Runs.Guarded step Prompt (established threadId callback) as)
    (h : Runs.exec step (established threadId callback) as = some s) : s.Completed :=
  (Runs.exec_invariant (graceful_established threadId callback)
    (fun _ _ _ ht ha hs => ht.step ha hs) hg h).completed

/-! ## A shutdown while output is pending -/

/-- The thread that an action moves. -/
def Action.thread? : Action → Option ℕ
  | .send tid _ _ | .sendOn tid _ | .shutdown tid | .disconnect tid | .shutdownOn tid => some tid
  | _ => none

theorem calls_sendInLoop {m : Message} {mem : Memory} {r : Written}
    (h : s.sendInLoop m mem r = some t) : t.calls = s.calls := by
  rw [SharedSender.sendInLoop] at h
  split_ifs at h
  · obtain ⟨u, -, rfl⟩ := Option.map_eq_some_iff.mp h
    rfl
  · cases h
    rfl

theorem calls_shutdownInLoop (s : SharedSender) : s.shutdownInLoop.calls = s.calls := by
  rw [shutdownInLoop]
  split_ifs <;> rfl

/-- An action moves one thread only. -/
theorem calls_of_step {a : Action} {tid : ℕ} (ha : a.thread? ≠ some tid) (h : s.step a = some t) :
    t.calls tid = s.calls tid := by
  have hact {b : Sender.Action} (h : s.act b = some t) : t.calls = s.calls := by
    rw [SharedSender.act] at h
    split_ifs at h
    obtain ⟨u, -, rfl⟩ := Option.map_eq_some_iff.mp h
    rfl
  cases a with
  | send tid' overload m =>
    have hne : tid ≠ tid' := fun heq => ha (heq ▸ rfl)
    rw [SharedSender.step, SharedSender.send] at h
    split at h
    · split_ifs at h <;> cases h
      · exact goTo_calls_of_ne s hne _
      · rfl
    · cases h
  | sendOn tid' r =>
    have hne : tid ≠ tid' := fun heq => ha (heq ▸ rfl)
    rw [SharedSender.step, SharedSender.sendOn] at h
    split at h
    · split_ifs at h
      · rw [calls_sendInLoop h]
        exact goTo_calls_of_ne s hne _
      · cases h
        exact goTo_calls_of_ne s hne _
    · cases h
  | shutdown tid' =>
    have hne : tid ≠ tid' := fun heq => ha (heq ▸ rfl)
    rw [SharedSender.step, SharedSender.shutdown] at h
    split at h
    · split_ifs at h <;> cases h
      · exact goTo_calls_of_ne s hne _
      · rfl
    · cases h
  | disconnect tid' =>
    have hne : tid ≠ tid' := fun heq => ha (heq ▸ rfl)
    rw [SharedSender.step, SharedSender.disconnect] at h
    split at h
    · cases h
      exact goTo_calls_of_ne s hne _
    · cases h
  | shutdownOn tid' =>
    have hne : tid ≠ tid' := fun heq => ha (heq ▸ rfl)
    rw [SharedSender.step, SharedSender.shutdownOn] at h
    split at h
    · split_ifs at h <;> cases h
      · rw [calls_shutdownInLoop]
        exact goTo_calls_of_ne s hne _
      · exact goTo_calls_of_ne s hne _
    · cases h
  | runFunctor mem r =>
    rw [SharedSender.step, SharedSender.runFunctor] at h
    split_ifs at h
    split at h
    · cases h
    · rw [calls_sendInLoop h]
    · rw [calls_sendInLoop h]
    · cases h
      rw [calls_shutdownInLoop]
  | handleWrite r => rw [hact h]
  | sendFile file r => rw [hact h]
  | setWriteCompleteCallback on => rw [hact h]
  | callbackReturns => rw [hact h]

/-- A thread that none of the actions moves stays in no call. -/
theorem idle_of_exec {threadId : ℕ} {callback : Bool} {as : List Action} {tid : ℕ}
    (ha : ∀ a ∈ as, a.thread? ≠ some tid)
    (h : Runs.exec step (established threadId callback) as = some s) : s.calls tid = .idle := by
  refine Runs.exec_invariant (G := fun _ a => a.thread? ≠ some tid)
    (I := fun s => s.calls tid = .idle) rfl
    (fun t a t' ht hne hs => (calls_of_step hne hs).trans ht) (fun done a hd t _ => ?_) h
  exact ha a (hd.subset (List.mem_append_right _ List.mem_cons_self))

/-- In the loop thread, a message of which a part is written, a shutdown, and the rest of the
message. -/
def shutdownPending : List Action :=
  [.send 0 .bytes Sender.abcde, .sendOn 0 (.count 2), .shutdown 0, .disconnect 0, .shutdownOn 0,
    .handleWrite (.count 3)]

/-- **A shutdown while output is pending**: the output is flushed, and the write side is never shut
down. -/
theorem not_completed : ∃ s : SharedSender,
    Runs.exec step (established 0 false) shutdownPending = some s ∧ ¬ s.Completed := by
  have hrun : (Runs.exec step (established 0 false) shutdownPending).map (fun s =>
      ((s.sender.conn.state, s.sender.conn.writing, s.sender.conn.outputBuffer.bytes),
        (s.functors.isEmpty, s.LoopIdle, s.threadId, s.shutdownWrites))) =
      some ((.kDisConnecting, false, []), (true, true, 0, 0)) := by decide +kernel
  obtain ⟨s, hs, hobs⟩ := Option.map_eq_some_iff.mp hrun
  simp only [Prod.mk.injEq] at hobs
  obtain ⟨⟨hstate, hwriting, hbytes⟩, hfunctors, hidle, hid, hwrites⟩ := hobs
  refine ⟨s, hs, fun hcompleted => ?_⟩
  have hquiet : s.Quiet := by
    refine ⟨fun tid => ?_, List.isEmpty_iff.mp hfunctors⟩
    by_cases htid : tid = 0
    · -- the loop thread has come back, and no other has moved
      rw [LoopIdle, hid] at hidle
      subst htid
      split at hidle
      · assumption
      · cases hidle
    · refine idle_of_exec (fun a ha => ?_) hs
      simp only [shutdownPending, List.mem_cons, List.not_mem_nil, or_false] at ha
      rcases ha with rfl | rfl | rfl | rfl | rfl | rfl <;> simp [Action.thread?, Ne.symm htid]
  rw [hcompleted hquiet hstate hbytes hwriting] at hwrites
  exact absurd hwrites (by decide)

/-- A message of which a part is written, the rest of it, and a shutdown by another thread. -/
def shutdownFlushed : List Action :=
  [.send 0 .bytes Sender.abcde, .sendOn 0 (.count 2), .shutdown 1, .disconnect 1, .shutdownOn 1,
    .handleWrite (.count 3), .runFunctor Sender.abcde.mem (.count 0)]

/-- The theorem at work: the output has been flushed when `shutdownInLoop` runs. -/
theorem completed_of_prompt_flushed : ∃ s : SharedSender,
    Runs.exec step (established 0 false) shutdownFlushed = some s ∧ s.Completed := by
  have hsome : (Runs.exec step (established 0 false) shutdownFlushed).isSome = true := by
    decide +kernel
  obtain ⟨s, hs⟩ := Option.isSome_iff_exists.mp hsome
  have hprompt : Runs.Guarded step Prompt (established 0 false) shutdownFlushed := by decide +kernel
  exact ⟨s, hs, completed_of_prompt hprompt hs⟩

end SharedSender

end Net

end Muduo
