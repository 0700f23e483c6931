import Mathlib.Logic.Function.Basic
import Muduo.Net.TcpConnection

/-! # Loop state is for the loop thread

`timerQueue_`, and of each connection `outputBuffer_`, `file_` and the interest set of its channel,
belong to the thread of the loop. A function of `EventLoop`, `TimerQueue` or `TcpConnection` is here
the list of what it does with them: the places that it touches, the calls of `assertInLoopThread`,
the tests of `state_` and of the thread, and the functions that it calls or queues. Where data
decide whether something is called, it may or may not be. Any number of threads go through such
lists, one statement at a time, and call the cross-thread functions from code of their own: outside,
in a functor or in a callback.

**`Confinement.confined_iff`**: only the loop thread touches them if and only if no other thread
calls `runAt`, `runAfter` or `runEvery`, and none finds the connection `kConnected` in the
`sendInLoop` of its `send(Buffer*)`: these call at once what the others queue. -/

namespace Muduo

namespace Net

open Function (update)

/-- What belongs to the loop thread. -/
inductive Place (κ : Type*)
  | timerQueue
  | outputBuffer (c : κ)
  | file (c : κ)
  /-- The interest set of the channel of the connection `c`. -/
  | interest (c : κ)
deriving DecidableEq, Repr

/-- The functions, with the connection they belong to, and blocks of functions. -/
inductive Fn (κ : Type*)
  /-- A functor or a callback of the user's. -/
  | user
  | runInLoop
  | queueInLoop
  | runAt
  | runAfter
  | runEvery
  | cancel
  | addTimer
  | addTimerInLoop
  | cancelInLoop
  /-- `TimerQueue::handleRead`. -/
  | handleTimers
  /-- `send(const char*)`. -/
  | sendChars (c : κ)
  /-- `send(Buffer*)`. -/
  | sendBuffer (c : κ)
  /-- `send(const std::string&)`. -/
  | sendString (c : κ)
  /-- `send(const void*, size_t)`. -/
  | sendBytes (c : κ)
  | sendFile (c : κ)
  | shutdown (c : κ)
  | sendInLoop (c : κ)
  | sendInLoopAsString (c : κ)
  | sendFileInLoop (c : κ)
  | shutdownInLoop (c : κ)
  /-- The channel is not writing: `outputBuffer_` is looked at, and the socket is written to. -/
  | writeNow (c : κ)
  /-- The file of a `sendFile` is open. -/
  | sendOpened (c : κ)
  /-- The rest of a message is appended to `outputBuffer_`. -/
  | bufferRest (c : κ)
  /-- The rest of a file is kept in `file_`. -/
  | keepFile (c : κ)
  | connectEstablished (c : κ)
  | connectDestroyed (c : κ)
  /-- `connectDestroyed` of a connection that is `kConnected`. -/
  | disconnect (c : κ)
  | handleRead (c : κ)
  | handleClose (c : κ)
  | handleWrite (c : κ)
  /-- `file_`, or else `outputBuffer_`, is written. -/
  | flushFile (c : κ)
  | flushBuffer (c : κ)
  /-- All is written. -/
  | writeComplete (c : κ)
deriving DecidableEq, Repr

/-- What a function does. -/
inductive Stmt (κ : Type*)
  | assertInLoopThread
  /-- The place is read or changed. -/
  | touch (p : Place κ)
  /-- `if(state_!=kConnected)return;` -/
  | returnUnless (c : κ)
  /-- `state_ = state`. -/
  | setState (c : κ) (state : State)
  | call (f : Fn κ)
  /-- `f` is called, or not. -/
  | maybe (f : Fn κ)
  /-- `if(isInLoopThread()) f(); else runInLoop(g);` -/
  | ifInLoopThread (f g : Fn κ)
  | runInLoop (f : Fn κ)
  | queueInLoop (f : Fn κ)
  /-- Code of the user's. -/
  | callback
deriving DecidableEq, Repr

namespace Stmt

variable {κ : Type*}

/-- What a thread may do that is not the loop's. -/
def isRemote : Stmt κ → Bool
  | returnUnless _ => true
  | setState _ _ => true
  | ifInLoopThread _ _ => true
  | runInLoop _ => true
  | queueInLoop _ => true
  | callback => true
  | call (.sendBytes _) => true
  | call (.sendInLoop _) => true
  | _ => false

/-- An access, or a call that leads to one. -/
def needsLoop : Stmt κ → Bool
  | assertInLoopThread => true
  | touch _ => true
  | call .addTimer => true
  | call .addTimerInLoop => true
  | _ => false

end Stmt

namespace Fn

variable {κ : Type*}

/-- What is offered to all threads. -/
def isEntry : Fn κ → Bool
  | runInLoop => true
  | queueInLoop => true
  | runAt => true
  | runAfter => true
  | runEvery => true
  | cancel => true
  | sendChars _ => true
  | sendBuffer _ => true
  | sendString _ => true
  | sendBytes _ => true
  | sendFile _ => true
  | shutdown _ => true
  | _ => false

/-- `runAt`, `runAfter` and `runEvery`. -/
def isTimer : Fn κ → Bool
  | runAt => true
  | runAfter => true
  | runEvery => true
  | _ => false

/-- What the loop runs on events. -/
def isHandler : Fn κ → Bool
  | handleTimers => true
  | connectEstablished _ => true
  | connectDestroyed _ => true
  | handleRead _ => true
  | handleClose _ => true
  | handleWrite _ => true
  | _ => false

/-- The statements of a function. -/
def code : Fn κ → List (Stmt κ)
  | user => [.callback]
  | runInLoop => [.runInLoop .user]
  | queueInLoop => [.queueInLoop .user]
  | runAt => [.call .addTimer]
  | runAfter => [.call .addTimer]
  | runEvery => [.call .addTimer]
  | cancel => [.runInLoop .cancelInLoop]
  | addTimer => [.call .addTimerInLoop]
  -- `empty()` and `top()`, and `push`
  | addTimerInLoop => [.touch .timerQueue, .touch .timerQueue]
  -- only the `Timer` is marked
  | cancelInLoop => []
  -- `getExpired`, the callbacks, and `reset`
  | handleTimers => [.touch .timerQueue, .callback, .touch .timerQueue]
  | sendChars c => [.returnUnless c, .call (.sendBytes c)]
  | sendBuffer c => [.returnUnless c, .call (.sendInLoop c)]
  | sendString c => [.returnUnless c, .ifInLoopThread (.sendInLoop c) (.sendInLoopAsString c)]
  | sendBytes c => [.returnUnless c, .ifInLoopThread (.sendInLoop c) (.sendInLoop c)]
  | sendFile c => [.returnUnless c, .ifInLoopThread (.sendFileInLoop c) (.sendFileInLoop c)]
  | shutdown c => [.returnUnless c, .setState c .kDisConnecting, .runInLoop (.shutdownInLoop c)]
  | sendInLoop c => [.returnUnless c, .assertInLoopThread, .touch (.interest c),
      .maybe (.writeNow c), .maybe (.bufferRest c)]
  | sendInLoopAsString c => [.returnUnless c, .assertInLoopThread, .call (.sendInLoop c)]
  | sendFileInLoop c => [.touch (.file c), .maybe (.sendOpened c)]
  | shutdownInLoop c => [.assertInLoopThread, .touch (.interest c)]
  | writeNow c => [.touch (.outputBuffer c), .maybe .user]
  | sendOpened c => [.touch (.interest c), .maybe (.writeNow c), .maybe (.keepFile c)]
  | bufferRest c => [.touch (.outputBuffer c), .touch (.interest c)]
  | keepFile c => [.touch (.file c), .touch (.interest c)]
  | connectEstablished c => [.assertInLoopThread, .setState c .kConnected, .touch (.interest c),
      .callback]
  | connectDestroyed c => [.assertInLoopThread, .call (.disconnect c), .touch (.interest c)]
  | disconnect c => [.returnUnless c, .setState c .kDisConnected, .touch (.interest c), .callback]
  -- the message callback, or the end of the stream
  | handleRead c => [.maybe .user, .maybe (.handleClose c)]
  -- `connectionCallback_` and `closeCallback_`
  | handleClose c => [.setState c .kDisConnected, .touch (.interest c), .callback, .callback]
  | handleWrite c => [.assertInLoopThread, .touch (.interest c), .touch (.file c),
      .maybe (.flushFile c), .maybe (.flushBuffer c)]
  | flushFile c => [.touch (.file c), .maybe (.writeComplete c)]
  | flushBuffer c => [.touch (.outputBuffer c), .maybe (.writeComplete c)]
  | writeComplete c => [.touch (.interest c), .touch (.file c), .maybe .user]

end Fn

/-- A place is touched, or `assertInLoopThread` is called. -/
structure Access (κ : Type*) where
  thread : ℕ
  place : Option (Place κ)
deriving DecidableEq, Repr

/-- A loop, its connections `κ`, and the threads that use them. -/
structure Confinement (κ : Type*) where
  /-- `threadId_`. -/
  threadId : ℕ
  /-- `state_` of the connections. -/
  state : κ → State
  /-- What the threads have to do, the innermost function first. -/
  stack : ℕ → List (List (Stmt κ))
  /-- `pendingFunctors_`. -/
  pendingFunctors : List (Fn κ)
  /-- The accesses, in order. -/
  log : List (Access κ)

namespace Confinement

variable {κ : Type*}

/-- A loop of the thread `threadId`, with connections in the given states. -/
def new (threadId : ℕ) (state : κ → State) : Confinement κ where
  threadId := threadId
  state := state
  stack _ := []
  pendingFunctors := []
  log := []

/-- The thread is in code of its own. -/
def inUser (s : Confinement κ) (t : ℕ) : Bool :=
  match s.stack t with
  | [] => true
  | (.callback :: _) :: _ => true
  | _ => false

/-- The thread `t` has `l` to do now. -/
def setStack (s : Confinement κ) (t : ℕ) (l : List (List (Stmt κ))) : Confinement κ :=
  { s with stack := update s.stack t l }

/-- The thread `t` calls `f`. -/
def push (s : Confinement κ) (t : ℕ) (f : Fn κ) : Confinement κ :=
  s.setStack t (f.code :: s.stack t)

/-- `queueInLoop(f)`. -/
def queueInLoop (s : Confinement κ) (f : Fn κ) : Confinement κ :=
  { s with pendingFunctors := s.pendingFunctors ++ [f] }

/-- The thread `t` makes an access. -/
def note (s : Confinement κ) (t : ℕ) (p : Option (Place κ)) : Confinement κ :=
  { s with log := s.log ++ [⟨t, p⟩] }

variable [DecidableEq κ]

/-- The thread `t` goes on: its function has still `rest` to do, and its callers `callers`. -/
def exec (s : Confinement κ) (t : ℕ) (rest : List (Stmt κ)) (callers : List (List (Stmt κ)))
    (taken : Bool) : Stmt κ → Confinement κ
  | .assertInLoopThread => (s.setStack t (rest :: callers)).note t none
  | .touch p => (s.setStack t (rest :: callers)).note t (some p)
  | .returnUnless c => s.setStack t (if s.state c = .kConnected then rest :: callers else callers)
  | .setState c state => { s.setStack t (rest :: callers) with state := update s.state c state }
  | .call f => (s.setStack t (rest :: callers)).push t f
  | .maybe f =>
    if taken then (s.setStack t (rest :: callers)).push t f else s.setStack t (rest :: callers)
  | .ifInLoopThread f g =>
    if t = s.threadId then (s.setStack t (rest :: callers)).push t f
    else (s.setStack t (rest :: callers)).queueInLoop g
  | .runInLoop f =>
    if t = s.threadId then (s.setStack t (rest :: callers)).push t f
    else (s.setStack t (rest :: callers)).queueInLoop f
  | .queueInLoop f => (s.setStack t (rest :: callers)).queueInLoop f
  | .callback => s.setStack t (rest :: callers)

/-- What can happen. -/
inductive Action (κ : Type*)
  /-- A thread calls one of the cross-thread functions. -/
  | enter (t : ℕ) (f : Fn κ)
  /-- A thread makes its next step. What may or may not be called is called if `taken`. -/
  | next (t : ℕ) (taken : Bool)
  /-- The loop runs its next functor. -/
  | runFunctor
  /-- The loop handles an event. -/
  | handle (f : Fn κ)

/-- One action. -/
def step (s : Confinement κ) : Action κ → Option (Confinement κ)
  | .enter t f => if f.isEntry ∧ s.inUser t then some (s.push t f) else none
  | .next t taken =>
    match s.stack t with
    | [] => none
    | [] :: callers => some (s.setStack t callers)
    | (st :: rest) :: callers => some (s.exec t rest callers taken st)
  | .runFunctor =>
    match s.stack s.threadId, s.pendingFunctors with
    | [], f :: functors => some ({ s with pendingFunctors := functors }.push s.threadId f)
    | _, _ => none
  | .handle f =>
    if f.isHandler ∧ s.stack s.threadId = [] then some (s.push s.threadId f) else none

omit [DecidableEq κ] in
/-- Only the loop thread makes accesses. -/
def Confined (s : Confinement κ) : Prop := ∀ e ∈ s.log, e.thread = s.threadId

omit [DecidableEq κ] in
/-- The thread is at the test of `state_` in front of `assertInLoopThread`, and the connection is
`kConnected`: it is in `sendInLoop`, and goes on. -/
def passesCheck (s : Confinement κ) (t : ℕ) : Bool :=
  match s.stack t with
  | (.returnUnless c :: .assertInLoopThread :: _) :: _ => s.state c = .kConnected
  | _ => false

omit [DecidableEq κ] in
/-- Another thread than the loop's calls none of `runAt`, `runAfter` and `runEvery`, and does not go
on in `sendInLoop`. -/
def Remote (s : Confinement κ) : Action κ → Prop
  | .enter t f => t = s.threadId ∨ f.isTimer = false
  | .next t _ => t = s.threadId ∨ s.passesCheck t = false
  | _ => True

omit [DecidableEq κ] in
instance (s : Confinement κ) : ∀ a, Decidable (s.Remote a)
  | .enter t f => inferInstanceAs (Decidable (t = s.threadId ∨ f.isTimer = false))
  | .next t _ => inferInstanceAs (Decidable (t = s.threadId ∨ s.passesCheck t = false))
  | .runFunctor => isTrue trivial
  | .handle _ => isTrue trivial

/-! ## What a step leaves alone -/

variable {s s' : Confinement κ} {t u : ℕ} {rest : List (Stmt κ)} {callers : List (List (Stmt κ))}

/-- The thread that makes the step. -/
def actor (s : Confinement κ) : Action κ → ℕ
  | .enter t _ => t
  | .next t _ => t
  | .runFunctor => s.threadId
  | .handle _ => s.threadId

/-- **A step** is made by one thread, and what is new in the log is of this thread. -/
structure Frame (t : ℕ) (s s' : Confinement κ) : Prop where
  threadId : s'.threadId = s.threadId
  stack : ∀ u, u ≠ t → s'.stack u = s.stack u
  log : ∃ new, s'.log = s.log ++ new ∧ ∀ e ∈ new, e.thread = t

omit [DecidableEq κ] in
theorem frame_of_eq (hid : s'.threadId = s.threadId) (hlog : s'.log = s.log)
    (hstack : ∀ u, u ≠ t → s'.stack u = s.stack u) : Frame t s s' :=
  ⟨hid, hstack, [], by rw [hlog, List.append_nil], nofun⟩

omit [DecidableEq κ] in
theorem frame_setStack (s : Confinement κ) (t : ℕ) (l : List (List (Stmt κ))) :
    Frame t s (s.setStack t l) :=
  frame_of_eq rfl rfl fun _ hu => Function.update_of_ne hu _ _

omit [DecidableEq κ] in
theorem setStack_push (s : Confinement κ) (t : ℕ) (l : List (List (Stmt κ))) (f : Fn κ) :
    (s.setStack t l).push t f = s.setStack t (f.code :: l) := by
  simp [push, setStack]

theorem frame_exec (s : Confinement κ) (t : ℕ) (rest : List (Stmt κ))
    (callers : List (List (Stmt κ))) (taken : Bool) (st : Stmt κ) :
    Frame t s (s.exec t rest callers taken st) := by
  have hset := fun l => frame_setStack s t l
  cases st with
  | assertInLoopThread =>
    exact ⟨rfl, (hset _).stack, _, rfl, List.forall_mem_singleton.mpr rfl⟩
  | touch p => exact ⟨rfl, (hset _).stack, _, rfl, List.forall_mem_singleton.mpr rfl⟩
  | returnUnless c => exact hset _
  | setState c state => exact frame_of_eq rfl rfl (hset _).stack
  | call f =>
    rw [exec, setStack_push]
    exact hset _
  | maybe f =>
    rw [exec, setStack_push]
    split_ifs
    · exact hset _
    · exact hset _
  | ifInLoopThread f g =>
    rw [exec, setStack_push]
    split_ifs
    · exact hset _
    · exact frame_of_eq rfl rfl (hset _).stack
  | runInLoop f =>
    rw [exec, setStack_push]
    split_ifs
    · exact hset _
    · exact frame_of_eq rfl rfl (hset _).stack
  | queueInLoop f => exact frame_of_eq rfl rfl (hset _).stack
  | callback => exact hset _

theorem frame_step {a : Action κ} (hs : s.step a = some s') : Frame (s.actor a) s s' := by
  cases a with
  | enter t f =>
    rw [step, Option.ite_none_right_eq_some] at hs
    cases hs.2
    exact frame_setStack s t _
  | next t taken =>
    rw [step] at hs
    split at hs
    · cases hs
    · cases hs
      exact frame_setStack s t _
    · cases hs
      exact frame_exec s t _ _ _ _
  | runFunctor =>
    rw [step] at hs
    split at hs
    · cases hs
      exact frame_of_eq rfl rfl fun _ hu => Function.update_of_ne hu _ _
    · cases hs
  | handle f =>
    rw [step, Option.ite_none_right_eq_some] at hs
    cases hs.2
    exact frame_setStack s _ _

/-! ## Threads that stay away -/

/-- What another thread has to do in a function: nothing with the loop's state, or the whole of
`sendInLoop`, whose test of `state_` it will not pass. -/
inductive SafeFrame : List (Stmt κ) → Prop
  | remote {fr : List (Stmt κ)} (h : ∀ st ∈ fr, st.isRemote = true) : SafeFrame fr
  | guarded (c : κ) (rest : List (Stmt κ)) :
    SafeFrame (.returnUnless c :: .assertInLoopThread :: rest)

/-- The invariant of the runs in which the other threads stay away. -/
structure Inv (s : Confinement κ) : Prop where
  safe : ∀ t, t ≠ s.threadId → ∀ fr ∈ s.stack t, SafeFrame fr
  confined : s.Confined

omit [DecidableEq κ] in
theorem safeFrame_entry {f : Fn κ} (h : f.isEntry = true) (ht : f.isTimer = false) :
    SafeFrame f.code := by
  cases f with
  | runInLoop => exact .remote (by simp [Fn.code, Stmt.isRemote])
  | queueInLoop => exact .remote (by simp [Fn.code, Stmt.isRemote])
  | runAt => cases ht
  | runAfter => cases ht
  | runEvery => cases ht
  | cancel => exact .remote (by simp [Fn.code, Stmt.isRemote])
  | sendChars c => exact .remote (by simp [Fn.code, Stmt.isRemote])
  | sendBuffer c => exact .remote (by simp [Fn.code, Stmt.isRemote])
  | sendString c => exact .remote (by simp [Fn.code, Stmt.isRemote])
  | sendBytes c => exact .remote (by simp [Fn.code, Stmt.isRemote])
  | sendFile c => exact .remote (by simp [Fn.code, Stmt.isRemote])
  | shutdown c => exact .remote (by simp [Fn.code, Stmt.isRemote])
  | _ => cases h

omit [DecidableEq κ] in
/-- A step of the loop thread keeps the invariant. -/
theorem Inv.of_loop (h : s.Inv) (hf : Frame s.threadId s s') : s'.Inv := by
  obtain ⟨new, hlog, hnew⟩ := hf.log
  refine ⟨fun t ht => ?_, ?_⟩
  · rw [hf.threadId] at ht
    rw [hf.stack t ht]
    exact h.safe t ht
  · rw [Confined, hlog, hf.threadId]
    exact List.forall_mem_append.mpr ⟨h.confined, hnew⟩

omit [DecidableEq κ] in
/-- A step of another thread keeps the invariant if it makes no access and leaves the thread safe
things to do. -/
theorem Inv.of_remote (h : s.Inv) (hf : Frame t s s') (hlog : s'.log = s.log)
    (hsafe : ∀ fr ∈ s'.stack t, SafeFrame fr) : s'.Inv := by
  refine ⟨fun u hu => ?_, ?_⟩
  · rw [hf.threadId] at hu
    by_cases hut : u = t
    · exact hut ▸ hsafe
    · rw [hf.stack u hut]
      exact h.safe u hu
  · rw [Confined, hlog, hf.threadId]
    exact h.confined

omit [DecidableEq κ] in
theorem setStack_self (s : Confinement κ) (t : ℕ) (l : List (List (Stmt κ))) :
    (s.setStack t l).stack t = l :=
  Function.update_self _ _ _

/-- **A statement of another thread** that does not pass the test in `sendInLoop`. -/
theorem exec_remote {st : Stmt κ} (taken : Bool) (ht : t ≠ s.threadId)
    (hfr : SafeFrame (st :: rest)) (hcallers : ∀ fr ∈ callers, SafeFrame fr)
    (hcheck : ∀ c l, st = .returnUnless c → rest = .assertInLoopThread :: l →
      s.state c ≠ .kConnected) :
    (s.exec t rest callers taken st).log = s.log ∧
      ∀ fr ∈ (s.exec t rest callers taken st).stack t, SafeFrame fr := by
  cases hfr with
  | guarded c l =>
    -- `sendInLoop` returns
    have hstate := hcheck c l rfl rfl
    refine ⟨rfl, ?_⟩
    rw [exec, if_neg hstate, setStack_self]
    exact hcallers
  | remote hremote =>
    obtain ⟨hst, hrest⟩ := List.forall_mem_cons.mp hremote
    have hgo : ∀ fr ∈ rest :: callers, SafeFrame fr :=
      List.forall_mem_cons.mpr ⟨.remote hrest, hcallers⟩
    cases st with
    | assertInLoopThread => cases hst
    | touch p => cases hst
    | returnUnless c =>
      refine ⟨rfl, ?_⟩
      rw [exec, setStack_self]
      split_ifs
      · exact hgo
      · exact hcallers
    | setState c state => exact ⟨rfl, (setStack_self s t _).symm ▸ hgo⟩
    | call f =>
      refine ⟨rfl, ?_⟩
      rw [exec, setStack_push, setStack_self]
      refine List.forall_mem_cons.mpr ⟨?_, hgo⟩
      cases f with
      | sendBytes c => exact .remote (by simp [Fn.code, Stmt.isRemote])
      | sendInLoop c => exact .guarded c _
      | _ => cases hst
    | maybe f => cases hst
    | ifInLoopThread f g =>
      rw [exec, if_neg ht]
      exact ⟨rfl, (setStack_self s t _).symm ▸ hgo⟩
    | runInLoop f =>
      rw [exec, if_neg ht]
      exact ⟨rfl, (setStack_self s t _).symm ▸ hgo⟩
    | queueInLoop f => exact ⟨rfl, (setStack_self s t _).symm ▸ hgo⟩
    | callback => exact ⟨rfl, (setStack_self s t _).symm ▸ hgo⟩

theorem Inv.step {a : Action κ} (h : s.Inv) (ha : s.Remote a) (hs : s.step a = some s') :
    s'.Inv := by
  have hf := frame_step hs
  by_cases hactor : s.actor a = s.threadId
  · exact h.of_loop (hactor ▸ hf)
  cases a with
  | enter t f =>
    have ht : t ≠ s.threadId := hactor
    rw [Confinement.step, Option.ite_none_right_eq_some] at hs
    obtain ⟨⟨hentry, -⟩, hs⟩ := hs
    cases hs
    refine h.of_remote (t := t) hf rfl ?_
    rw [push, setStack_self]
    exact List.forall_mem_cons.mpr ⟨safeFrame_entry hentry (ha.resolve_left ht), h.safe t ht⟩
  | next t taken =>
    have ht : t ≠ s.threadId := hactor
    have hsafe := h.safe t ht
    rw [Confinement.step] at hs
    split at hs
    · cases hs
    · next callers hstack =>
      cases hs
      rw [hstack] at hsafe
      refine h.of_remote (t := t) hf rfl ?_
      rw [setStack_self]
      exact (List.forall_mem_cons.mp hsafe).2
    · next st rest callers hstack =>
      cases hs
      rw [hstack] at hsafe
      obtain ⟨hfr, hcallers⟩ := List.forall_mem_cons.mp hsafe
      have hcheck : ∀ c l, st = .returnUnless c → rest = .assertInLoopThread :: l →
          s.state c ≠ .kConnected := by
        rintro c l rfl rfl hstate
        have hpass := ha.resolve_left ht
        rw [passesCheck, hstack] at hpass
        exact (of_decide_eq_false hpass) hstate
      obtain ⟨hlog, hnew⟩ := exec_remote taken ht hfr hcallers hcheck
      exact h.of_remote hf hlog hnew
  | runFunctor => exact absurd rfl hactor
  | handle f => exact absurd rfl hactor

/-! ## Threads that do not -/

/-- The next statement is an access, or leads to one. -/
def Doomed (l : List (List (Stmt κ))) : Prop :=
  ∃ st rest callers, l = (st :: rest) :: callers ∧ st.needsLoop = true

/-- Another thread has made an access, or will make one. -/
def Broken (s : Confinement κ) : Prop :=
  (∃ e ∈ s.log, e.thread ≠ s.threadId) ∨ ∃ t, t ≠ s.threadId ∧ Doomed (s.stack t)

/-- A call of `runAt`, `runAfter` or `runEvery` in another thread, and a `sendInLoop` that goes on
there, will make an access. -/
theorem broken_of_not_remote {a : Action κ} (ha : ¬ s.Remote a) (hs : s.step a = some s') :
    s'.Broken := by
  cases a with
  | enter t f =>
    obtain ⟨ht, htimer⟩ := not_or.mp ha
    rw [step, Option.ite_none_right_eq_some] at hs
    cases hs.2
    refine .inr ⟨t, ht, ?_⟩
    rw [push, setStack_self]
    refine ⟨.call .addTimer, [], s.stack t, ?_, rfl⟩
    cases f with
    | runAt => rfl
    | runAfter => rfl
    | runEvery => rfl
    | _ => exact absurd rfl htimer
  | next t taken =>
    obtain ⟨ht, hpass⟩ := not_or.mp ha
    rw [passesCheck] at hpass
    split at hpass
    · next c l callers hstack =>
      have hstate : s.state c = .kConnected := by simpa using hpass
      rw [step, hstack] at hs
      cases hs
      refine .inr ⟨t, ht, ?_⟩
      rw [exec, if_pos hstate, setStack_self]
      exact ⟨_, _, _, rfl, rfl⟩
    · exact absurd rfl hpass
  | runFunctor => exact absurd trivial ha
  | handle f => exact absurd trivial ha

/-- A thread that will make an access goes on to it. -/
theorem Doomed.next {taken : Bool} (h : Doomed (s.stack t))
    (hs : s.step (.next t taken) = some s') :
    (∃ e ∈ s'.log, e.thread = t) ∨ Doomed (s'.stack t) := by
  obtain ⟨st, rest, callers, hstack, hst⟩ := h
  rw [step, hstack] at hs
  cases hs
  have hlast (p : Option (Place κ)) : ∃ e ∈ s.log ++ [⟨t, p⟩], e.thread = t :=
    ⟨_, List.mem_append_right _ List.mem_cons_self, rfl⟩
  cases st with
  | assertInLoopThread => exact .inl (hlast none)
  | touch p => exact .inl (hlast (some p))
  | call f =>
    rw [exec, setStack_push, setStack_self]
    cases f with
    | addTimer => exact .inr ⟨_, _, _, rfl, rfl⟩
    | addTimerInLoop => exact .inr ⟨_, _, _, rfl, rfl⟩
    | _ => cases hst
  | _ => cases hst

theorem Broken.step {a : Action κ} (h : s.Broken) (hs : s.step a = some s') : s'.Broken := by
  have hf := frame_step hs
  obtain ⟨new, hlog, -⟩ := hf.log
  rcases h with ⟨e, he, hne⟩ | ⟨t, ht, hdoomed⟩
  · refine .inl ⟨e, ?_, hf.threadId ▸ hne⟩
    rw [hlog]
    exact List.mem_append_left _ he
  · by_cases hactor : t = s.actor a
    · cases a with
      | enter u f =>
        -- it is not in code of the user's
        obtain rfl : t = u := hactor
        obtain ⟨st, rest, callers, hstack, hst⟩ := hdoomed
        rw [Confinement.step, Option.ite_none_right_eq_some] at hs
        have huser := hs.1.2
        rw [inUser, hstack] at huser
        cases st with
        | callback => cases hst
        | _ => cases huser
      | next u taken =>
        obtain rfl : t = u := hactor
        rcases hdoomed.next hs with ⟨e, he, heq⟩ | hdoomed
        · exact .inl ⟨e, he, by rw [heq, hf.threadId]; exact ht⟩
        · exact .inr ⟨t, hf.threadId ▸ ht, hdoomed⟩
      | runFunctor => exact absurd hactor ht
      | handle f => exact absurd hactor ht
    · refine .inr ⟨t, hf.threadId ▸ ht, ?_⟩
      rw [hf.stack t hactor]
      exact hdoomed

/-- **When loop state is confined to the loop thread.** For any connections in any states, any
threads and every interleaving of their calls with what the loop does: if no other thread calls
`runAt`, `runAfter` or `runEvery`, and none goes on in `sendInLoop` with a `kConnected` connection,
only the loop thread touches the loop's state and calls `assertInLoopThread`; and where the other
threads have returned from all their calls at the end, only then. -/
theorem confined_iff {threadId : ℕ} {state : κ → State} {as : List (Action κ)}
    (h : Runs.exec step (new threadId state) as = some s) :
    (Runs.Guarded step Remote (new threadId state) as → s.Confined) ∧
      ((∀ t, t ≠ s.threadId → s.stack t = []) →
        (s.Confined ↔ Runs.Guarded step Remote (new threadId state) as)) := by
  have hconfined (hg : Runs.Guarded step Remote (new threadId state) as) : s.Confined := by
    have hnew : (new threadId state).Inv := ⟨nofun, nofun⟩
    have hstep : ∀ (s : Confinement κ) (a : Action κ) (s' : Confinement κ),
        s.Inv → s.Remote a → s.step a = some s' → s'.Inv :=
      fun _ _ _ hs ha hst => hs.step ha hst
    exact (Runs.exec_invariant hnew hstep hg h).confined
  refine ⟨hconfined, fun hend => ⟨fun hall => ?_, hconfined⟩⟩
  have hbroken : Runs.Guarded step Remote (new threadId state) as ∨ s.Broken :=
    Runs.guarded_or (I := fun _ => True) trivial (fun _ _ _ _ _ => trivial)
      (fun _ _ _ _ ha hst => broken_of_not_remote ha hst) (fun _ _ _ _ hs hst => hs.step hst) h
  refine hbroken.resolve_right ?_
  rintro (⟨e, he, hne⟩ | ⟨t, ht, st, rest, callers, hstack, -⟩)
  · exact hne (hall e he)
  · rw [hend t ht] at hstack
    cases hstack

/-- The thread makes `n` steps. -/
def steps (n t : ℕ) : List (Action Unit) := List.replicate n (.next t false)

/-- Thread 1 sends a string, cancels a timer, and sends a buffer while the loop thread 0 closes the
connection. -/
def remoteCalls : List (Action Unit) :=
  [.enter 1 (.sendString ())] ++ steps 3 1 ++ [.runFunctor] ++ steps 10 0 ++
    [.enter 1 .cancel] ++ steps 2 1 ++ [.runFunctor] ++ steps 1 0 ++
    [.enter 1 (.sendBuffer ())] ++ steps 1 1 ++ [.handle (.handleClose ())] ++ steps 5 0 ++
    steps 3 1

/-- The theorem at work. -/
theorem confined_iff_remoteCalls : ∃ s : Confinement Unit,
    Runs.exec step (new 0 fun _ => .kConnected) remoteCalls = some s ∧ s.Confined ∧
      ((∀ t, t ≠ s.threadId → s.stack t = []) → (s.Confined ↔
        Runs.Guarded step Remote (new 0 fun _ : Unit => .kConnected) remoteCalls)) := by
  have hsome : (Runs.exec step (new 0 fun _ : Unit => .kConnected) remoteCalls).isSome = true := by
    decide +kernel
  obtain ⟨s, hs⟩ := Option.isSome_iff_exists.mp hsome
  have hg : Runs.Guarded step Remote (new 0 fun _ : Unit => .kConnected) remoteCalls := by
    decide +kernel
  exact ⟨s, hs, (confined_iff hs).1 hg, (confined_iff hs).2⟩

/-- **A timer that another thread adds**: the heap is touched there. -/
theorem not_confined : ¬ ∀ (threadId : ℕ) (state : Unit → State) (as : List (Action Unit))
    (s : Confinement Unit), Runs.exec step (new threadId state) as = some s → s.Confined := by
  intro hall
  have hrun : (Runs.exec step (new 0 fun _ : Unit => .kConnected)
      [.enter 1 .runAfter, .next 1 false, .next 1 false, .next 1 false]).map (fun s =>
        (s.threadId, s.log)) = some (0, [⟨1, some .timerQueue⟩]) := by
    decide +kernel
  obtain ⟨s, hs, hobs⟩ := Option.map_eq_some_iff.mp hrun
  rw [Prod.mk.injEq] at hobs
  have hthread := hall 0 _ _ s hs ⟨1, some .timerQueue⟩ (by rw [hobs.2]; exact List.mem_cons_self)
  rw [hobs.1] at hthread
  cases hthread

end Confinement

end Net

end Muduo
