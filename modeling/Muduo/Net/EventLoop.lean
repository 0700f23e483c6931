import Mathlib.Logic.Function.Basic
import Muduo.Foundations.Runs

/-! # `EventLoop`: the functor queue

The queue of `muduo/net/EventLoop.cc` that any thread pushes into and the loop thread takes batches
out of, and the eventfd that wakes the loop thread up. Threads are numbers, and a functor is of any
type: what it does when it runs is a number of actions of the loop thread.

Every action is atomic: `queueInLoop` ends with `pendingFunctorsMutex_`, and the `wakeup()` of a
thread that has pushed is an action of its own. One iteration of `loop` is the return of `poll`, the
active channels with the one of the eventfd among them, the `swap` of `doPendingFunctors`, and its
loop. -/

namespace Muduo

namespace Net

open Function (update)

/-- A call of `queueInLoop`. -/
structure Queued (Φ : Type*) where
  /-- What is to be run. -/
  functor : Φ
  /-- The thread that has pushed it. -/
  thread : ℕ
  /-- The number of batches that were taken out before. -/
  batch : ℕ

/-- Where the loop thread is. -/
inductive LoopPhase (Φ : Type*)
  /-- Before `loop()`. -/
  | starting
  /-- About to block, or blocked, in `poller_->poll`. -/
  | polling
  /-- In the loop over `activeChannels_`; the eventfd is active and not yet handled, or not. -/
  | dispatching (wakeupActive : Bool)
  /-- In the loop of `doPendingFunctors`, with what it has to run. -/
  | running (functors : List (Queued Φ))

/-- `EventLoop`, with the threads that use it. -/
structure EventLoop (Φ : Type*) where
  /-- `threadId_`. -/
  threadId : ℕ
  /-- `pendingFunctors_`. -/
  pendingFunctors : List (Queued Φ)
  /-- The counter of the eventfd `wakeupFd_`. -/
  wakeupFd : ℕ
  /-- Where the loop thread is. -/
  phase : LoopPhase Φ
  /-- What a thread has pushed without having called `wakeup()` yet. -/
  waking : ℕ → Option (Queued Φ)
  /-- The number of batches that were taken out. -/
  batches : ℕ
  /-- What was pushed, in order. -/
  pushed : List (Queued Φ)
  /-- What was run, in order, with the number of its batch. -/
  executed : List (Queued Φ × ℕ)

namespace EventLoop

variable {Φ : Type*}

/-- `EventLoop()` in the thread `threadId`. -/
def new (threadId : ℕ) : EventLoop Φ where
  threadId := threadId
  pendingFunctors := []
  wakeupFd := 0
  phase := .starting
  waking := fun _ => none
  batches := 0
  pushed := []
  executed := []

/-- The thread is in code of its own, where it can call `queueInLoop`: the loop thread in a channel
callback or a functor, or before `loop()`, and every other thread once it has called `wakeup()`. -/
def Callable (s : EventLoop Φ) (thread : ℕ) : Bool :=
  if thread = s.threadId then
    match s.phase with
    | .polling => false
    | _ => true
  else (s.waking thread).isNone

/-- `isInLoopThread()`. -/
def isInLoopThread (s : EventLoop Φ) (thread : ℕ) : Bool := s.threadId == thread

/-- `pendingFunctors_.push_back(cb)`. -/
def push (s : EventLoop Φ) (x : Queued Φ) : EventLoop Φ :=
  { s with pendingFunctors := s.pendingFunctors ++ [x], pushed := s.pushed ++ [x] }

/-- `queueInLoop(cb)` up to `wakeup()`. -/
def queueInLoop (s : EventLoop Φ) (thread : ℕ) (cb : Φ) : EventLoop Φ :=
  let x : Queued Φ := ⟨cb, thread, s.batches⟩
  if !s.isInLoopThread thread then
    { s.push x with waking := update s.waking thread (some x) }
  else s.push x

/-- `runInLoop(cb)`. In the loop thread `cb` is run at once, and its actions follow. -/
def runInLoop (s : EventLoop Φ) (thread : ℕ) (cb : Φ) : EventLoop Φ :=
  if s.isInLoopThread thread then s else s.queueInLoop thread cb

/-- What can happen. -/
inductive Action (Φ : Type*)
  | queueInLoop (thread : ℕ) (cb : Φ)
  | runInLoop (thread : ℕ) (cb : Φ)
  /-- A thread that has pushed calls `wakeup()`. -/
  | wakeup (thread : ℕ)
  /-- `loop()` comes to `poll`. -/
  | poll
  /-- `poll` returns, with the eventfd among the active channels or not. -/
  | pollReturns (wakeupActive : Bool)
  | handleRead
  /-- `doPendingFunctors` takes the functors out. -/
  | swap
  /-- `doPendingFunctors` goes on to its next functor. -/
  | runNext

/-- One action. -/
def step (s : EventLoop Φ) : Action Φ → Option (EventLoop Φ)
  | .queueInLoop thread cb => if s.Callable thread then some (s.queueInLoop thread cb) else none
  | .runInLoop thread cb => if s.Callable thread then some (s.runInLoop thread cb) else none
  | .wakeup thread => (s.waking thread).map fun _ =>
    { s with wakeupFd := s.wakeupFd + 1, waking := update s.waking thread none }
  | .poll =>
    match s.phase with
    | .starting => some { s with phase := .polling }
    | .running [] => some { s with phase := .polling }
    | _ => none
  | .pollReturns wakeupActive =>
    match s.phase with
    | .polling =>
      if wakeupActive = true → s.wakeupFd ≠ 0 then some { s with phase := .dispatching wakeupActive }
      else none
    | _ => none
  | .handleRead =>
    match s.phase with
    | .dispatching true => some { s with wakeupFd := 0, phase := .dispatching false }
    | _ => none
  | .swap =>
    match s.phase with
    | .dispatching false =>
      some { s with
        pendingFunctors := []
        phase := .running s.pendingFunctors
        batches := s.batches + 1 }
    | _ => none
  | .runNext =>
    match s.phase with
    | .running (x :: functors) =>
      some { s with phase := .running functors, executed := s.executed ++ [(x, s.batches)] }
    | _ => none

/-- What `doPendingFunctors` has taken out and not yet run. -/
def functors (s : EventLoop Φ) : List (Queued Φ) :=
  match s.phase with
  | .running functors => functors
  | _ => []

/-- In the loop over the active channels. -/
def IsDispatching : LoopPhase Φ → Bool
  | .dispatching _ => true
  | _ => false

variable {s t : EventLoop Φ}

/-! ## What an action can do -/

/-- **What an action can do.** -/
inductive Step (s : EventLoop Φ) : Action Φ → EventLoop Φ → Prop
  /-- `queueInLoop`. -/
  | queue (thread : ℕ) (cb : Φ) : Step s (.queueInLoop thread cb) (s.queueInLoop thread cb)
  /-- `runInLoop` in the loop thread. -/
  | run (cb : Φ) : Step s (.runInLoop s.threadId cb) s
  /-- `runInLoop` in another thread. -/
  | runQueue (thread : ℕ) (cb : Φ) : thread ≠ s.threadId →
      Step s (.runInLoop thread cb) (s.queueInLoop thread cb)
  /-- `wakeup()` of a thread that has pushed. -/
  | wakeup (thread : ℕ) : Step s (.wakeup thread)
      { s with wakeupFd := s.wakeupFd + 1, waking := update s.waking thread none }
  /-- Nothing is left to run before `poll`. -/
  | poll : s.functors = [] → IsDispatching s.phase = false →
      Step s .poll { s with phase := .polling }
  | pollReturns (wakeupActive : Bool) : s.functors = [] →
      Step s (.pollReturns wakeupActive) { s with phase := .dispatching wakeupActive }
  | handleRead : s.functors = [] →
      Step s .handleRead { s with wakeupFd := 0, phase := .dispatching false }
  /-- The pending functors are the new batch. -/
  | swap : s.functors = [] → Step s .swap { s with
      pendingFunctors := []
      phase := .running s.pendingFunctors
      batches := s.batches + 1 }
  /-- The first functor of the batch is run. -/
  | runNext (x : Queued Φ) (functors : List (Queued Φ)) : s.phase = .running (x :: functors) →
      Step s .runNext
        { s with phase := .running functors, executed := s.executed ++ [(x, s.batches)] }

/-- An action does nothing else. -/
theorem step_spec {a : Action Φ} (hs : s.step a = some t) : Step s a t := by
  cases a with
  | queueInLoop thread cb =>
    simp only [EventLoop.step, Option.ite_none_right_eq_some, Option.some.injEq] at hs
    exact hs.2 ▸ .queue thread cb
  | runInLoop thread cb =>
    simp only [EventLoop.step, Option.ite_none_right_eq_some, Option.some.injEq] at hs
    obtain ⟨-, rfl⟩ := hs
    rw [runInLoop]
    by_cases hin : s.isInLoopThread thread = true
    · rw [if_pos hin]
      obtain rfl : s.threadId = thread := beq_iff_eq.mp hin
      exact .run cb
    · rw [if_neg hin]
      exact .runQueue thread cb fun heq => hin (beq_iff_eq.mpr heq.symm)
  | wakeup thread =>
    obtain ⟨x, -, rfl⟩ := Option.map_eq_some_iff.mp hs
    exact .wakeup thread
  | poll =>
    rw [EventLoop.step] at hs
    -- either the loop begins, or a batch is finished
    split at hs
    · next hphase =>
      cases hs
      exact .poll (by rw [functors, hphase]) (by rw [hphase]; rfl)
    · next hphase =>
      cases hs
      exact .poll (by rw [functors, hphase]) (by rw [hphase]; rfl)
    · cases hs
  | pollReturns wakeupActive =>
    rw [EventLoop.step] at hs
    split at hs
    · next hphase =>
      simp only [Option.ite_none_right_eq_some, Option.some.injEq] at hs
      exact hs.2 ▸ .pollReturns wakeupActive (by rw [functors, hphase])
    · cases hs
  | handleRead =>
    rw [EventLoop.step] at hs
    split at hs
    · next hphase =>
      cases hs
      exact .handleRead (by rw [functors, hphase])
    · cases hs
  | swap =>
    rw [EventLoop.step] at hs
    split at hs
    · next hphase =>
      cases hs
      exact .swap (by rw [functors, hphase])
    · cases hs
  | runNext =>
    rw [EventLoop.step] at hs
    split at hs
    · next x rest hphase =>
      cases hs
      exact .runNext x rest hphase
    · cases hs

/-! ## Functors in order -/

/-- Everything pushed has been run, is in the batch that is being run, or is pending, in this order;
and is run in a batch that was taken out after it was pushed. -/
structure InOrder (s : EventLoop Φ) : Prop where
  pushed : s.pushed = s.executed.map Prod.fst ++ s.functors ++ s.pendingFunctors
  executed : ∀ x ∈ s.executed, x.1.batch < x.2
  functors : ∀ x ∈ s.functors, x.batch < s.batches
  pending : ∀ x ∈ s.pendingFunctors, x.batch ≤ s.batches

theorem InOrder.push (h : s.InOrder) {x : Queued Φ} (hx : x.batch = s.batches) :
    (s.push x).InOrder := by
  refine ⟨?_, h.executed, h.functors, fun y hy => ?_⟩
  · change s.pushed ++ [x] = _ ++ (s.pendingFunctors ++ [x])
    rw [h.pushed, List.append_assoc (_ ++ _)]
    rfl
  · rcases List.mem_append.mp hy with hy | hy
    · exact h.pending y hy
    · exact (List.mem_singleton.mp hy ▸ hx).le

theorem InOrder.queueInLoop (h : s.InOrder) (thread : ℕ) (cb : Φ) :
    (s.queueInLoop thread cb).InOrder := by
  have hpush : (s.push ⟨cb, thread, s.batches⟩).InOrder := h.push rfl
  simp only [EventLoop.queueInLoop]
  split_ifs
  · exact ⟨hpush.pushed, hpush.executed, hpush.functors, hpush.pending⟩
  · exact hpush

/-- A phase without a batch, and any counter of the eventfd. -/
theorem InOrder.idle (h : s.InOrder) (hf : s.functors = []) {phase : LoopPhase Φ} {n : ℕ}
    (hphase : ({ s with phase := phase, wakeupFd := n } : EventLoop Φ).functors = []) :
    ({ s with phase := phase, wakeupFd := n } : EventLoop Φ).InOrder := by
  have hpushed := h.pushed
  rw [hf] at hpushed
  refine ⟨?_, h.executed, ?_, h.pending⟩
  · rw [hphase]
    exact hpushed
  · rw [hphase]
    exact nofun

/-- **One action keeps the order.** -/
theorem InOrder.step {a : Action Φ} (h : s.InOrder) (hs : s.step a = some t) : t.InOrder := by
  cases step_spec hs with
  | queue thread cb => exact h.queueInLoop thread cb
  | run => exact h
  | runQueue thread cb => exact h.queueInLoop thread cb
  | wakeup => exact ⟨h.pushed, h.executed, h.functors, h.pending⟩
  | poll hf => exact h.idle hf rfl
  | pollReturns wakeupActive hf => exact h.idle hf rfl
  | handleRead hf => exact h.idle hf rfl
  | swap hf =>
    refine ⟨?_, h.executed, fun x hx => Nat.lt_succ_of_le (h.pending x hx), nofun⟩
    -- the pending functors are the new batch
    have hpushed := h.pushed
    rw [hf, List.append_nil] at hpushed
    exact hpushed.trans (List.append_nil _).symm
  | runNext x rest hphase =>
    -- the first functor of the batch moves to the end of those that were run
    have hf : s.functors = x :: rest := by rw [EventLoop.functors, hphase]
    have hlt := h.functors
    rw [hf, List.forall_mem_cons] at hlt
    refine ⟨?_, fun y hy => ?_, hlt.2, h.pending⟩
    · have hpushed := h.pushed
      rw [hf] at hpushed
      change s.pushed = (s.executed ++ [(x, s.batches)]).map Prod.fst ++ rest ++ s.pendingFunctors
      rw [hpushed, List.map_append, List.append_assoc (s.executed.map Prod.fst) _ rest]
      rfl
    · rcases List.mem_append.mp hy with hy | hy
      · exact h.executed y hy
      · exact List.mem_singleton.mp hy ▸ hlt.1

end EventLoop

end Net

end Muduo
