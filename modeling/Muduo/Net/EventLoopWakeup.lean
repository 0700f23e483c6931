import Muduo.Net.EventLoop

/-! # `EventLoop`: no sleep on pending functors

`queueInLoop` skips `wakeup()` in the loop thread. That is right in a channel callback, which
`doPendingFunctors` follows; but a functor that `doPendingFunctors` runs is followed by `poll`.

**`EventLoop.awake_of_maySkip`**: in a run in which the loop thread skips `wakeup()` only in channel
callbacks or when a wakeup is on its way anyway, `poll` never blocks while functors are pending. -/

namespace Muduo

namespace Net

namespace EventLoop

open Function (update)

variable {Φ : Type*} {s t : EventLoop Φ}

/-- The eventfd is readable, or a thread that pushed one of the pending functors has yet to call
`wakeup()`. -/
def Roused (s : EventLoop Φ) : Prop :=
  s.wakeupFd ≠ 0 ∨ ∃ x ∈ s.pendingFunctors, s.waking x.thread = some x

/-- The loop thread does not block while functors are pending, unless it will be woken up. -/
def Awake (s : EventLoop Φ) : Prop :=
  s.phase = .polling → s.pendingFunctors ≠ [] → s.Roused

/-- Where the loop thread calls `queueInLoop`, which skips `wakeup()`, it is in a channel callback,
or a wakeup is on its way. -/
def MaySkip (s : EventLoop Φ) : Action Φ → Prop
  | .queueInLoop thread _ => thread = s.threadId → IsDispatching s.phase = true ∨ s.Roused
  | _ => True

/-- Outside the loop over the active channels, pending functors come with a wakeup. -/
def Prepared (s : EventLoop Φ) : Prop :=
  IsDispatching s.phase = false → s.pendingFunctors ≠ [] → s.Roused

theorem Prepared.awake (h : s.Prepared) : s.Awake := by
  intro hphase
  refine h ?_
  rw [hphase]
  rfl

/-- Another thread pushes, and will call `wakeup()`. -/
theorem roused_queueInLoop {thread : ℕ} (hthread : thread ≠ s.threadId) (cb : Φ) :
    (s.queueInLoop thread cb).Roused := by
  have hnot : s.isInLoopThread thread = false := beq_eq_false_iff_ne.mpr hthread.symm
  simp only [queueInLoop, hnot]
  exact .inr ⟨_, List.mem_append_right _ List.mem_cons_self, Function.update_self ..⟩

/-- A wakeup that is on its way stays so when the loop thread pushes. -/
theorem Roused.queueInLoop (h : s.Roused) (cb : Φ) : (s.queueInLoop s.threadId cb).Roused := by
  have hin : s.isInLoopThread s.threadId = true := beq_self_eq_true _
  simp only [EventLoop.queueInLoop, hin, Bool.not_true, Bool.false_eq_true, if_false]
  rcases h with hfd | ⟨x, hx, hwaking⟩
  · exact .inl hfd
  · exact .inr ⟨x, List.mem_append_left _ hx, hwaking⟩

theorem queueInLoop_phase (s : EventLoop Φ) (thread : ℕ) (cb : Φ) :
    (s.queueInLoop thread cb).phase = s.phase := by
  simp only [queueInLoop]
  split_ifs <;> rfl

/-- **One action.** -/
theorem Prepared.step {a : Action Φ} (h : s.Prepared) (ha : s.MaySkip a)
    (hs : s.step a = some t) : t.Prepared := by
  cases step_spec hs with
  | queue thread cb =>
    intro hphase _
    by_cases hthread : thread = s.threadId
    · -- the loop thread skips `wakeup()`
      subst hthread
      rcases ha rfl with hdispatching | hroused
      · rw [queueInLoop_phase, hdispatching] at hphase
        cases hphase
      · exact hroused.queueInLoop cb
    · exact roused_queueInLoop hthread cb
  | run => exact h
  | runQueue thread cb hthread => exact fun _ _ => roused_queueInLoop hthread cb
  | wakeup => exact fun _ _ => .inl (Nat.succ_ne_zero _)
  | poll _ hphase =>
    -- nothing but the phase changes, and it was not dispatching before
    exact fun _ => h hphase
  | pollReturns => exact fun hphase => nomatch hphase
  | handleRead => exact fun hphase => nomatch hphase
  | swap => exact fun _ hpending => absurd rfl hpending
  | runNext x rest hphase => exact fun _ => h (by rw [hphase]; rfl)

/-- **The loop thread does not sleep on pending functors**, in any run in which it skips `wakeup()`
only where it may. -/
theorem awake_of_maySkip {threadId : ℕ} {as : List (Action Φ)}
    (hg : Runs.Guarded step MaySkip (new threadId) as)
    (h : Runs.exec step (new threadId) as = some s) : s.Awake := by
  have hnew : (new threadId : EventLoop Φ).Prepared := fun _ hpending => absurd rfl hpending
  exact (Runs.exec_invariant hnew (fun _ _ _ hu ha hs => hu.step ha hs) hg h).awake

/-- Another thread queues a functor, and the loop thread comes to `poll` before the `wakeup()`. -/
theorem awake_of_maySkip_two : ∃ s : EventLoop ℕ,
    Runs.exec step (new 0) [.queueInLoop 1 5, .poll] = some s ∧ s.Awake := by
  have hsome : (Runs.exec step (new 0 : EventLoop ℕ) [.queueInLoop 1 5, .poll]).isSome = true := by
    decide +kernel
  obtain ⟨s, hs⟩ := Option.isSome_iff_exists.mp hsome
  have hfirst : Runs.Guarded step MaySkip (new 0 : EventLoop ℕ) ([] ++ [.queueInLoop 1 5]) := by
    refine Runs.guarded_nil.concat fun t ht => ?_
    cases ht
    exact fun hthread => nomatch hthread
  have hboth : Runs.Guarded step MaySkip (new 0 : EventLoop ℕ) ([.queueInLoop 1 5] ++ [.poll]) :=
    hfirst.concat fun _ _ => trivial
  exact ⟨s, hs, awake_of_maySkip hboth hs⟩

/-- About to block, or blocked, in `poller_->poll`. -/
def IsPolling : LoopPhase Φ → Bool
  | .polling => true
  | _ => false

theorem isPolling_iff {p : LoopPhase Φ} : IsPolling p = true ↔ p = .polling := by
  cases p <;> simp [IsPolling]

/-- **A functor that queues a functor**: the loop thread comes to `poll` with it pending, and
nothing will wake it up. -/
theorem not_awake : ¬ ∀ (threadId : ℕ) (as : List (Action ℕ)) (s : EventLoop ℕ),
    Runs.exec step (new threadId) as = some s → s.Awake := by
  intro hall
  have hrun : (Runs.exec step (new 0 : EventLoop ℕ) [.queueInLoop 1 5, .wakeup 1, .poll,
      .pollReturns true, .handleRead, .swap, .runNext, .queueInLoop 0 6, .poll]).map
      (fun s => (IsPolling s.phase, s.pendingFunctors.map Queued.thread, s.wakeupFd,
        (s.waking 0).isNone)) = some (true, [0], 0, true) := by
    decide +kernel
  obtain ⟨s, hs, hobs⟩ := Option.map_eq_some_iff.mp hrun
  simp only [Prod.mk.injEq] at hobs
  obtain ⟨hphase, hthreads, hfd, hwaking⟩ := hobs
  have hpending : s.pendingFunctors ≠ [] := by
    intro hnil
    rw [hnil] at hthreads
    cases hthreads
  rcases hall 0 _ s hs (isPolling_iff.mp hphase) hpending with hne | ⟨x, hx, hx'⟩
  · exact hne hfd
  · have hthread : x.thread ∈ s.pendingFunctors.map Queued.thread := List.mem_map_of_mem hx
    rw [hthreads, List.mem_singleton] at hthread
    rw [hthread] at hx'
    rw [hx'] at hwaking
    cases hwaking

end EventLoop

end Net

end Muduo
