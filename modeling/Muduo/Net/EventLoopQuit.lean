import Muduo.Net.EventLoop

/-! # `EventLoop::quit` and `EventLoopThread`

`loop()` and `quit()` of `muduo/net/EventLoop.cc`, around the iterations that `EventLoop` describes,
and the destructor of `muduo/net/EventLoopThread.cc`, which calls `quit()` and joins the loop
thread. `loop()` resets `quit_` and then runs `while (1)`: nothing reads `quit_`.

**`LoopThread.not_stops_of_isQuit`**: no call of `quit()`, whenever it is made, keeps the loop
thread from a further iteration, and no `join` waits for a loop whose iterations are bounded. -/

namespace Muduo

namespace Net

/-- How far the loop thread is. -/
inductive LoopStage
  /-- The `EventLoop` is constructed, and `loop()` has not begun. -/
  | constructed
  /-- In `loop()`, before `quit_.getAndSet(false)`. -/
  | entered
  /-- At `while (1)`. -/
  | looping
  /-- An exception has left `loop()`, and the thread is finished. -/
  | ended
deriving DecidableEq, Repr

/-- Where `~EventLoopThread` is. -/
inductive DestructorPc
  /-- It has not been called. -/
  | alive
  /-- At `loop_->quit()`. -/
  | quit
  /-- At `thread_.join()`. -/
  | join
  | destroyed
deriving DecidableEq, Repr

/-- An `EventLoopThread` whose thread has constructed its `EventLoop` and counted `latch_` down. -/
structure LoopThread (Φ : Type*) where
  /-- The `EventLoop`: its functors, and where an iteration is. -/
  base : EventLoop Φ
  /-- `quit_`. -/
  quit : Bool
  /-- `looping_`. -/
  looping : Bool
  /-- `iteration_`. -/
  iteration : ℕ
  stage : LoopStage
  destructor : DestructorPc

/-- The action begins an iteration. -/
def EventLoop.Action.isPoll {Φ : Type*} : EventLoop.Action Φ → Bool
  | poll => true
  | _ => false

namespace LoopThread

variable {Φ : Type*}

/-- After `EventLoop()` in the thread `threadId`. -/
def new (threadId : ℕ) : LoopThread Φ where
  base := .new threadId
  quit := false
  looping := false
  iteration := 0
  stage := .constructed
  destructor := .alive

/-- What can happen. -/
inductive Action (Φ : Type*)
  /-- An action in an iteration or of another thread; it begins an iteration if it is `poll`. -/
  | base (a : EventLoop.Action Φ)
  /-- The loop thread calls `loop()`, up to `looping_=true`. -/
  | enter
  /-- `quit_.getAndSet(false)` in `loop()`. -/
  | reset
  /-- The thread calls `quit()`. -/
  | quit (thread : ℕ)
  /-- A callback or a functor throws. -/
  | throws
  /-- Another thread calls `~EventLoopThread`, which does not wait for `latch_`. -/
  | destroy
  /-- `loop_->quit()` in the destructor. -/
  | destructorQuit
  /-- `thread_.join()` in the destructor returns. -/
  | join

/-- One action. -/
def step (s : LoopThread Φ) : Action Φ → Option (LoopThread Φ)
  | .base a =>
    if s.stage = .looping ∨ s.stage ≠ .ended ∧ a.isPoll = false then
      (s.base.step a).map fun b => { s with
        base := b
        iteration := if a.isPoll then s.iteration + 1 else s.iteration }
    else none
  | .enter =>
    if s.stage = .constructed ∧ s.looping = false then
      some { s with looping := true, stage := .entered }
    else none
  | .reset => if s.stage = .entered then some { s with quit := false, stage := .looping } else none
  | .quit thread =>
    if s.stage ≠ .ended ∧ s.base.Callable thread = true then some { s with quit := true } else none
  | .throws =>
    if s.stage = .looping then
      match s.base.phase with
      | .dispatching _ => some { s with stage := .ended }
      | .running _ => some { s with stage := .ended }
      | _ => none
    else none
  | .destroy => if s.destructor = .alive then some { s with destructor := .quit } else none
  | .destructorQuit =>
    if s.destructor = .quit ∧ s.stage ≠ .ended then
      some { s with quit := true, destructor := .join }
    else none
  | .join =>
    if s.destructor = .join ∧ s.stage = .ended then some { s with destructor := .destroyed }
    else none

/-- The action is a call of `quit()`. -/
def Action.isQuit : Action Φ → Bool
  | quit _ => true
  | destructorQuit => true
  | _ => false

/-! ## What is promised -/

/-- No iteration begins from here on. -/
def Stops (s : LoopThread Φ) : Prop :=
  ∀ as u, Runs.exec step s as = some u → u.iteration = s.iteration

/-- The loop does not keep polling: from here on its iterations are bounded. -/
def Subsides (s : LoopThread Φ) : Prop :=
  ∃ n, ∀ as u, Runs.exec step s as = some u → u.iteration ≤ n

/-! ## The next iteration -/

variable {s t : LoopThread Φ} {n : ℕ}

/-- The loop thread can come to its iteration `n`, and the destructor stays where it is. -/
def Reaches (s : LoopThread Φ) (n : ℕ) : Prop :=
  ∃ as u, Runs.exec step s as = some u ∧ u.stage = .looping ∧ u.iteration = n ∧
    u.destructor = s.destructor

theorem Reaches.cons {a : Action Φ} (hs : s.step a = some t) (hd : t.destructor = s.destructor)
    (h : t.Reaches n) : s.Reaches n := by
  obtain ⟨as, u, hu, hstage, hn, hdu⟩ := h
  refine ⟨a :: as, u, ?_, hstage, hn, hdu.trans hd⟩
  rw [Runs.exec_cons, hs]
  exact hu

theorem Reaches.trans {m : ℕ} (h : s.Reaches m)
    (hnext : ∀ u : LoopThread Φ, u.stage = .looping → u.iteration = m → u.Reaches n) :
    s.Reaches n := by
  obtain ⟨as, u, hu, hstage, hm, hd⟩ := h
  obtain ⟨bs, v, hv, hstage', hn, hd'⟩ := hnext u hstage hm
  exact ⟨as ++ bs, v, Runs.exec_append_eq_some.mpr ⟨u, hu, hv⟩, hstage', hn, hd'.trans hd⟩

/-- An action of the loop at `while (1)`. -/
theorem step_base {a : EventLoop.Action Φ} {b : EventLoop Φ} (h : s.stage = .looping)
    (hb : s.base.step a = some b) : s.step (.base a) = some { s with
      base := b
      iteration := if a.isPoll then s.iteration + 1 else s.iteration } := by
  rw [step, if_pos (.inl h), hb]
  rfl

/-- An action inside an iteration. -/
theorem Reaches.base {a : EventLoop.Action Φ} {b : EventLoop Φ} (h : s.stage = .looping)
    (ha : a.isPoll = false) (hb : s.base.step a = some b)
    (hnext : Reaches { s with base := b } n) : s.Reaches n := by
  refine Reaches.cons (step_base h hb) rfl ?_
  rw [ha]
  exact hnext

/-- The loop begins its next iteration. -/
theorem reaches_of_poll {b : EventLoop Φ} (h : s.stage = .looping)
    (hb : s.base.step .poll = some b) : s.Reaches (s.iteration + 1) :=
  Reaches.cons (step_base h hb) rfl ⟨[], _, rfl, h, rfl, rfl⟩

/-- Behind the functors that are left, it comes to the next iteration. -/
theorem reaches_of_running {functors : List (Queued Φ)} (h : s.stage = .looping)
    (hphase : s.base.phase = .running functors) : s.Reaches (s.iteration + 1) := by
  induction functors generalizing s with
  | nil =>
    have hpoll : s.base.step .poll = some { s.base with phase := .polling } := by
      rw [EventLoop.step, hphase]
    exact reaches_of_poll h hpoll
  | cons x functors ih =>
    have hrun : s.base.step .runNext = some { s.base with
        phase := .running functors
        executed := s.base.executed ++ [(x, s.base.batches)] } := by
      rw [EventLoop.step, hphase]
    refine Reaches.base h rfl hrun ?_
    exact ih (s := { s with base := { s.base with
        phase := .running functors
        executed := s.base.executed ++ [(x, s.base.batches)] } }) h rfl

/-- **The loop goes on** from wherever it is: nothing that it does depends on `quit_`. -/
theorem reaches_of_looping (h : s.stage = .looping) : s.Reaches (s.iteration + 1) := by
  have hswap {s : LoopThread Φ} (h : s.stage = .looping)
      (hphase : s.base.phase = .dispatching false) : s.Reaches (s.iteration + 1) := by
    have hstep : s.base.step .swap = some { s.base with
        pendingFunctors := []
        phase := .running s.base.pendingFunctors
        batches := s.base.batches + 1 } := by
      rw [EventLoop.step, hphase]
    refine Reaches.base h rfl hstep (reaches_of_running (s := { s with base := _ }) h rfl)
  cases hphase : s.base.phase with
  | starting =>
    have hpoll : s.base.step .poll = some { s.base with phase := .polling } := by
      rw [EventLoop.step, hphase]
    exact reaches_of_poll h hpoll
  | polling =>
    -- `poll` returns after `kPollTimeMs` at the latest
    have hreturns : s.base.step (.pollReturns false) =
        some { s.base with phase := .dispatching false } := by
      rw [EventLoop.step, hphase]
      simp
    exact Reaches.base h rfl hreturns (hswap (s := { s with base := _ }) h rfl)
  | dispatching wakeupActive =>
    cases wakeupActive with
    | false => exact hswap h hphase
    | true =>
      have hread : s.base.step .handleRead =
          some { s.base with wakeupFd := 0, phase := .dispatching false } := by
        rw [EventLoop.step, hphase]
      exact Reaches.base h rfl hread (hswap (s := { s with base := _ }) h rfl)
  | running functors => exact reaches_of_running h hphase

/-- `loop()` can be entered. -/
def Enterable (s : LoopThread Φ) : Prop := s.stage = .constructed → s.looping = false

theorem Enterable.step {a : Action Φ} (h : s.Enterable) (hs : s.step a = some t) :
    t.Enterable := by
  cases a with
  | base a =>
    obtain ⟨-, hs⟩ := Option.ite_none_right_eq_some.mp hs
    obtain ⟨b, -, rfl⟩ := Option.map_eq_some_iff.mp hs
    exact h
  | enter =>
    obtain ⟨-, hs⟩ := Option.ite_none_right_eq_some.mp hs
    cases hs
    exact nofun
  | reset =>
    obtain ⟨-, hs⟩ := Option.ite_none_right_eq_some.mp hs
    cases hs
    exact nofun
  | throws =>
    obtain ⟨-, hs⟩ := Option.ite_none_right_eq_some.mp hs
    split at hs <;> cases hs <;> exact nofun
  | quit thread | destroy | destructorQuit | join =>
    obtain ⟨-, hs⟩ := Option.ite_none_right_eq_some.mp hs
    cases hs
    exact h

/-- **The next iteration can always begin**, also if `loop()` has not been called yet. -/
theorem Enterable.reaches (h : s.Enterable) (hstage : s.stage ≠ .ended) :
    s.Reaches (s.iteration + 1) := by
  have hentered {s : LoopThread Φ} (h : s.stage = .entered) : s.Reaches (s.iteration + 1) := by
    have hreset : s.step .reset = some { s with quit := false, stage := .looping } := if_pos h
    refine Reaches.cons hreset rfl ?_
    exact reaches_of_looping (s := { s with quit := false, stage := .looping }) rfl
  cases hs : s.stage with
  | constructed =>
    have henter : s.step .enter = some { s with looping := true, stage := .entered } :=
      if_pos ⟨hs, h hs⟩
    refine Reaches.cons henter rfl ?_
    exact hentered (s := { s with looping := true, stage := .entered }) rfl
  | entered => exact hentered hs
  | looping => exact reaches_of_looping hs
  | ended => exact absurd hs hstage

/-- As many iterations as one likes. -/
theorem Enterable.reaches_add (h : s.Enterable) (hstage : s.stage ≠ .ended) (n : ℕ) :
    s.Reaches (s.iteration + (n + 1)) := by
  induction n with
  | zero => exact h.reaches hstage
  | succ n ih =>
    refine ih.trans fun u hu hn => ?_
    have hnext : u.Reaches (u.iteration + 1) := reaches_of_looping hu
    rw [hn] at hnext
    exact hnext

theorem Enterable.not_stops (h : s.Enterable) (hstage : s.stage ≠ .ended) : ¬s.Stops := by
  intro hstops
  obtain ⟨as, u, hu, -, hn, -⟩ := h.reaches hstage
  have := hstops as u hu
  omega

theorem Enterable.not_subsides (h : s.Enterable) (hstage : s.stage ≠ .ended) : ¬s.Subsides := by
  rintro ⟨n, hn⟩
  obtain ⟨as, u, hu, -, hiteration, -⟩ := h.reaches_add hstage n
  have := hn as u hu
  omega

/-- `quit()` is called on an `EventLoop` that exists. -/
theorem stage_of_isQuit {a : Action Φ} (ha : a.isQuit = true) (hs : s.step a = some t) :
    t.stage ≠ .ended := by
  cases a with
  | quit thread =>
    obtain ⟨hcond, hs⟩ := Option.ite_none_right_eq_some.mp hs
    cases hs
    exact hcond.1
  | destructorQuit =>
    obtain ⟨hcond, hs⟩ := Option.ite_none_right_eq_some.mp hs
    cases hs
    exact hcond.2
  | _ => cases ha

/-- **`quit` does not stop the loop.** For every run and every call of `quit()` at its end, from any
thread and wherever the loop thread is: another iteration can begin, and where the destructor comes
to its `join` while the loop runs, there is no bound on the iterations that it waits for. -/
theorem not_stops_of_isQuit {threadId : ℕ} {as : List (Action Φ)} {a : Action Φ}
    (h : Runs.exec step (new threadId) as = some s) (ha : a.isQuit = true)
    (hs : s.step a = some t) :
    ¬t.Stops ∧ ∀ bs u, Runs.exec step t bs = some u → u.destructor = .join → u.stage ≠ .ended →
      ¬u.Subsides := by
  have hnew : (new threadId : LoopThread Φ).Enterable := fun _ => rfl
  have ht : t.Enterable :=
    (Runs.exec_induction hnew (fun _ _ _ hu hs => Enterable.step hu hs) h).step hs
  refine ⟨ht.not_stops (stage_of_isQuit ha hs), fun bs u hu _ hstage => ?_⟩
  exact (Runs.exec_induction ht (fun _ _ _ hu hs => Enterable.step hu hs) hu).not_subsides hstage

/-- The theorem at work: the destructor calls `quit()` while the loop polls. -/
theorem not_stops_of_isQuit_polling : ∃ s t : LoopThread ℕ,
    Runs.exec step (new 0) [.enter, .reset, .base .poll, .destroy] = some s ∧
    s.step .destructorQuit = some t ∧ t.destructor = .join ∧ ¬t.Stops ∧
    ∀ bs u, Runs.exec step t bs = some u → u.destructor = .join → u.stage ≠ .ended →
      ¬u.Subsides := by
  have hrun : ((Runs.exec step (new 0 : LoopThread ℕ) [.enter, .reset, .base .poll,
      .destroy]).bind fun s => s.step .destructorQuit).map destructor = some .join := by
    decide +kernel
  obtain ⟨t, ht, hjoin⟩ := Option.map_eq_some_iff.mp hrun
  obtain ⟨s, hs, ht⟩ := Option.bind_eq_some_iff.mp ht
  obtain ⟨hstops, hsubsides⟩ := not_stops_of_isQuit hs rfl ht
  exact ⟨s, t, hs, ht, hjoin, hstops, hsubsides⟩

/-- **An iteration after `quit()`**, which another thread has called while the loop polled. -/
theorem not_stops_quit : ∃ s t : LoopThread ℕ,
    Runs.exec step (new 0) [.enter, .reset, .base .poll] = some s ∧ s.step (.quit 1) = some t ∧
    t.quit = true ∧ t.iteration = 1 ∧
    (Runs.exec step t [.base (.pollReturns false), .base .swap, .base .poll]).map iteration =
      some 2 ∧ ¬t.Stops := by
  have hrun : ((Runs.exec step (new 0 : LoopThread ℕ) [.enter, .reset, .base .poll]).bind fun s =>
      (s.step (.quit 1)).map fun t => (t.quit, t.iteration,
        (Runs.exec step t [.base (.pollReturns false), .base .swap, .base .poll]).map
          iteration)) = some (true, 1, some 2) := by
    decide +kernel
  obtain ⟨s, hs, hrest⟩ := Option.bind_eq_some_iff.mp hrun
  obtain ⟨t, ht, hobs⟩ := Option.map_eq_some_iff.mp hrest
  simp only [Prod.mk.injEq] at hobs
  obtain ⟨hquit, hone, htwo⟩ := hobs
  refine ⟨s, t, hs, ht, hquit, hone, htwo, fun hstops => ?_⟩
  obtain ⟨u, hu, hiteration⟩ := Option.map_eq_some_iff.mp htwo
  have := hstops _ u hu
  omega

end LoopThread

end Net

end Muduo
