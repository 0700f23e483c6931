import Mathlib.Data.List.Basic
import Mathlib.Data.List.Count
import Muduo.Foundations.Runs

/-! # `ThreadPool`

The bounded queue of `muduo/base/ThreadPool.cc`, with any number of workers and producers. What a
thread does while it holds `mutex_` is one action; in a `wait()` it has released `mutex_`. A thread
that waits returns when it was notified, or for no reason, as `pthread_cond_wait` may.

**`ThreadPool.keepsWakeups_iff`**: a producer is left waiting beside a queue with room if and only
if a worker takes a task while a producer waits. `take` does not notify `notFull_`. -/

namespace Muduo

/-- A thread that calls `run`. -/
inductive Producer (τ : Type*)
  /-- Not in `run`. -/
  | outside
  /-- In `notFull_.wait()`, not notified. -/
  | waiting (f : τ)
  /-- In `notFull_.wait()`, notified and not yet resumed. -/
  | notified (f : τ)

namespace Producer

variable {τ : Type*}

/-- It waits and is not notified. -/
def isWaiting : Producer τ → Bool
  | waiting _ => true
  | _ => false

/-- It is notified and not yet resumed. -/
def isNotified : Producer τ → Bool
  | notified _ => true
  | _ => false

/-- `notFull_.notifyAll()`. -/
def notify : Producer τ → Producer τ
  | waiting f => notified f
  | p => p

end Producer

/-- A thread of the pool. -/
inductive Worker
  /-- Not in `take`. -/
  | outside
  /-- In `notEmpty_.wait()`, not notified. -/
  | waiting
  /-- In `notEmpty_.wait()`, notified and not yet resumed. -/
  | notified
deriving DecidableEq, Repr

/-- `notEmpty_.notifyAll()`. -/
def Worker.notify : Worker → Worker
  | .waiting => .notified
  | k => k

/-- `ThreadPool`, with the threads that use it. -/
structure ThreadPool (τ : Type*) where
  /-- `maxQueueSize_`. -/
  maxQueueSize : ℕ
  /-- `queue_`. -/
  queue : List τ
  /-- `running_`. -/
  running : Bool
  /-- `threads_`. -/
  workers : List Worker
  /-- The threads that call `run`. -/
  producers : List (Producer τ)

namespace ThreadPool

variable {τ : Type*}

/-- After `setMaxQueueSize(maxSize)` and `start(numThreads)`, with threads that will call `run`. -/
def start (maxSize numThreads numProducers : ℕ) : ThreadPool τ where
  maxQueueSize := maxSize
  queue := []
  running := true
  workers := List.replicate numThreads .outside
  producers := List.replicate numProducers .outside

/-- `isFull()`. -/
def isFull (s : ThreadPool τ) : Bool :=
  decide (s.queue.length ≥ s.maxQueueSize) && decide (s.maxQueueSize > 0)

/-- `notEmpty_.notify()`: one waiting worker, the one numbered `j`, is notified, if there is any. -/
def notifyNotEmpty (s : ThreadPool τ) (j : ℕ) : Option (ThreadPool τ) :=
  if s.workers.contains .waiting then
    if s.workers[j]? = some .waiting then some { s with workers := s.workers.set j .notified }
    else none
  else some s

/-- The producer `i` is now at `p`. -/
def setProducer (s : ThreadPool τ) (i : ℕ) (p : Producer τ) : ThreadPool τ :=
  { s with producers := s.producers.set i p }

/-- `run(f)` in the thread `i` from the test of its loop on, with `mutex_` held. -/
def runLocked (s : ThreadPool τ) (i : ℕ) (f : τ) (j : ℕ) : Option (ThreadPool τ) :=
  -- `wait()` releases `mutex_`, and the test is made again after it
  if s.isFull && s.running then some (s.setProducer i (.waiting f))
  else if !s.running then some (s.setProducer i .outside)
  else ({ s with queue := s.queue ++ [f] }.setProducer i .outside).notifyNotEmpty j

/-- `take()` in the worker `j` from the test of its loop on, with `mutex_` held. -/
def takeLocked (s : ThreadPool τ) (j : ℕ) : ThreadPool τ :=
  if s.queue.isEmpty && s.running then { s with workers := s.workers.set j .waiting }
  -- after `stop()` the queue may be empty; `notFull_` is not notified
  else { s with queue := s.queue.tail, workers := s.workers.set j .outside }

/-- What can happen. -/
inductive Action (τ : Type*)
  /-- The thread `i` calls `run(f)`, which may notify the worker `j`. -/
  | run (i : ℕ) (f : τ) (j : ℕ)
  /-- The thread `i` returns from `notFull_.wait()`. -/
  | resumeRun (i j : ℕ)
  /-- The worker `j` calls `take()`. -/
  | take (j : ℕ)
  /-- The worker `j` returns from `notEmpty_.wait()`. -/
  | resumeTake (j : ℕ)
  /-- `stop()` clears `running_`. -/
  | stop
  /-- `stop()` notifies all. -/
  | notifyAll

/-- One action. Without threads, `run(f)` just calls `f`. -/
def step (s : ThreadPool τ) : Action τ → Option (ThreadPool τ)
  | .run i f j =>
    match s.producers[i]? with
    | some .outside => if s.workers.isEmpty then some s else s.runLocked i f j
    | _ => none
  | .resumeRun i j =>
    match s.producers[i]? with
    | some (.waiting f) => s.runLocked i f j
    | some (.notified f) => s.runLocked i f j
    | _ => none
  | .take j => if s.running ∧ s.workers[j]? = some .outside then some (s.takeLocked j) else none
  | .resumeTake j =>
    if s.workers[j]? = some .waiting ∨ s.workers[j]? = some .notified then some (s.takeLocked j)
    else none
  | .stop => some { s with running := false }
  | .notifyAll =>
    if s.running then none
    else some { s with
      workers := s.workers.map Worker.notify
      producers := s.producers.map Producer.notify }

/-! ## Wakeups -/

/-- The room in the queue. -/
def freeSlots (s : ThreadPool τ) : ℕ := s.maxQueueSize - s.queue.length

/-- A producer waits without having been notified. -/
def Blocked (s : ThreadPool τ) : Prop := ∃ p ∈ s.producers, p.isWaiting = true

/-- **No wakeup is lost**: while the pool runs and a producer waits, the room in the queue is for
those that are notified; and the producer does not wait beside idle workers and a queue with
room. -/
structure KeepsWakeups (s : ThreadPool τ) : Prop where
  room : s.running = true → s.Blocked → s.freeSlots ≤ s.producers.countP Producer.isNotified
  notStuck : s.running = true → s.Blocked → s.producers.countP Producer.isNotified = 0 →
    (∀ k ∈ s.workers, k = .waiting) → s.freeSlots = 0

/-- A worker that takes a task does so while no producer waits. -/
def TakesUnblocked (s : ThreadPool τ) : Action τ → Prop
  | .take _ => s.running = true → s.queue ≠ [] → ¬ s.Blocked
  | .resumeTake _ => s.running = true → s.queue ≠ [] → ¬ s.Blocked
  | _ => True

instance (s : ThreadPool τ) : Decidable s.Blocked :=
  inferInstanceAs (Decidable (∃ p ∈ s.producers, p.isWaiting = true))

instance (s : ThreadPool τ) : (a : Action τ) → Decidable (s.TakesUnblocked a)
  | .take _ | .resumeTake _ =>
    inferInstanceAs (Decidable (s.running = true → s.queue ≠ [] → ¬ s.Blocked))
  | .run _ _ _ | .resumeRun _ _ | .stop | .notifyAll => isTrue trivial

/-- The queue is bounded and within its bound, and nobody is notified while the pool runs. -/
structure Inv (s : ThreadPool τ) : Prop where
  pos : 0 < s.maxQueueSize
  bounded : s.queue.length ≤ s.maxQueueSize
  unnotified : s.running = true → ∀ p ∈ s.producers, p.isNotified = false

variable {s t : ThreadPool τ}

theorem inv_start {maxSize : ℕ} (h : 0 < maxSize) (numThreads numProducers : ℕ) :
    (start maxSize numThreads numProducers : ThreadPool τ).Inv := by
  refine ⟨h, Nat.zero_le _, fun _ p hp => ?_⟩
  rw [List.eq_of_mem_replicate hp]
  rfl

theorem isFull_iff (h : s.Inv) : s.isFull = true ↔ s.freeSlots = 0 := by
  have hpos := h.pos
  simp only [isFull, freeSlots, Bool.and_eq_true, decide_eq_true_eq]
  omega

/-- While the pool runs nobody is notified, so nobody may wait beside a queue with room. -/
theorem Inv.keepsWakeups_iff_waiting (h : s.Inv) :
    s.KeepsWakeups ↔ (s.running = true → s.Blocked → s.freeSlots = 0) := by
  have hzero (hr : s.running = true) : s.producers.countP Producer.isNotified = 0 :=
    List.countP_eq_zero.mpr fun p hp => by simp [h.unnotified hr p hp]
  refine ⟨fun hk hr hb => ?_, fun hk => ⟨fun hr hb => ?_, fun hr hb _ _ => hk hr hb⟩⟩
  · have hroom := hk.room hr hb
    rw [hzero hr] at hroom
    exact Nat.le_zero.mp hroom
  · rw [hk hr hb]
    exact Nat.zero_le _

/-- `notEmpty_.notify()` changes the workers only. -/
theorem notifyNotEmpty_eq_some {j : ℕ} (h : s.notifyNotEmpty j = some t) :
    ∃ workers, t = { s with workers := workers } := by
  rw [notifyNotEmpty] at h
  split_ifs at h
  · cases h
    exact ⟨_, rfl⟩
  · cases h
    exact ⟨s.workers, rfl⟩

/-- **What `run` does with the lock held**: it waits beside a full queue, gives up, or puts its task
into a queue with room. -/
theorem runLocked_cases {i j : ℕ} {f : τ} (h : s.runLocked i f j = some t) :
    (s.isFull = true ∧ s.running = true ∧ t = s.setProducer i (.waiting f)) ∨
    (s.running = false ∧ t = s.setProducer i .outside) ∨
    (s.isFull = false ∧ s.running = true ∧ ∃ workers, t = { s with
      queue := s.queue ++ [f]
      producers := s.producers.set i .outside
      workers := workers }) := by
  rw [runLocked] at h
  split_ifs at h with hwait hrun
  · rw [Bool.and_eq_true] at hwait
    exact .inl ⟨hwait.1, hwait.2, (Option.some.inj h).symm⟩
  · exact .inr (.inl ⟨by simpa using hrun, (Option.some.inj h).symm⟩)
  · have hr : s.running = true := by simpa using hrun
    have hf : s.isFull = false := by simpa [hr] using hwait
    obtain ⟨workers, rfl⟩ := notifyNotEmpty_eq_some h
    exact .inr (.inr ⟨hf, hr, workers, rfl⟩)

/-- **What `take` does with the lock held**: it waits beside an empty queue, or takes its first
task. -/
theorem takeLocked_cases (s : ThreadPool τ) (j : ℕ) :
    (s.queue = [] ∧ s.running = true ∧
      s.takeLocked j = { s with workers := s.workers.set j .waiting }) ∨
    ((s.running = true → s.queue ≠ []) ∧
      s.takeLocked j = { s with queue := s.queue.tail, workers := s.workers.set j .outside }) := by
  rw [takeLocked]
  split_ifs with hwait
  · rw [Bool.and_eq_true, List.isEmpty_iff] at hwait
    exact .inl ⟨hwait.1, hwait.2, rfl⟩
  · refine .inr ⟨fun hr hq => hwait ?_, rfl⟩
    rw [hq, hr]
    rfl

/-- What a step can be, as far as producers are concerned. -/
theorem step_cases {a : Action τ} (h : s.step a = some t) :
    (t = s ∧ s.TakesUnblocked a) ∨ (∃ i f j, s.runLocked i f j = some t ∧ s.TakesUnblocked a) ∨
    (∃ j, t = s.takeLocked j ∧
      (s.TakesUnblocked a ↔ (s.running = true → s.queue ≠ [] → ¬ s.Blocked))) ∨
    (t.running = false ∧ t.maxQueueSize = s.maxQueueSize ∧ t.queue = s.queue ∧
      s.TakesUnblocked a) := by
  cases a with
  | run i f j =>
    rw [step] at h
    split at h
    · split_ifs at h
      · exact .inl ⟨(Option.some.inj h).symm, trivial⟩
      · exact .inr (.inl ⟨i, f, j, h, trivial⟩)
    · cases h
  | resumeRun i j =>
    rw [step] at h
    split at h
    · exact .inr (.inl ⟨i, _, j, h, trivial⟩)
    · exact .inr (.inl ⟨i, _, j, h, trivial⟩)
    · cases h
  | take j =>
    rw [step, Option.ite_none_right_eq_some] at h
    exact .inr (.inr (.inl ⟨j, (Option.some.inj h.2).symm, Iff.rfl⟩))
  | resumeTake j =>
    rw [step, Option.ite_none_right_eq_some] at h
    exact .inr (.inr (.inl ⟨j, (Option.some.inj h.2).symm, Iff.rfl⟩))
  | stop =>
    cases h
    exact .inr (.inr (.inr ⟨rfl, rfl, rfl, trivial⟩))
  | notifyAll =>
    rw [step, Option.ite_none_left_eq_some] at h
    obtain ⟨hr, h⟩ := h
    cases h
    exact .inr (.inr (.inr ⟨by simpa using hr, rfl, rfl, trivial⟩))

/-- A producer that is set to something else. -/
theorem isNotified_set {producers : List (Producer τ)} {i : ℕ} {p : Producer τ}
    (h : ∀ q ∈ producers, q.isNotified = false) (hp : p.isNotified = false) :
    ∀ q ∈ producers.set i p, q.isNotified = false := by
  intro q hq
  rcases List.mem_or_eq_of_mem_set hq with hq | rfl
  · exact h q hq
  · exact hp

/-- What is asked of a running pool holds of one that does not run. -/
theorem of_not_running {p : Prop} (hr : s.running = false) (hr' : s.running = true) : p :=
  absurd hr' (Bool.eq_false_iff.mp hr)

theorem Inv.step {a : Action τ} (h : s.Inv) (hs : s.step a = some t) : t.Inv := by
  obtain ⟨rfl, -⟩ | ⟨i, f, j, hrun, -⟩ | ⟨j, rfl, -⟩ | ⟨hr, hmax, hq, -⟩ := step_cases hs
  · exact h
  · obtain ⟨-, hr, rfl⟩ | ⟨hr, rfl⟩ | ⟨hfull, hr, workers, rfl⟩ := runLocked_cases hrun
    · exact ⟨h.pos, h.bounded, fun _ => isNotified_set (h.unnotified hr) rfl⟩
    · exact ⟨h.pos, h.bounded, of_not_running hr⟩
    · -- the task goes into a queue with room
      refine ⟨h.pos, ?_, fun _ => isNotified_set (h.unnotified hr) rfl⟩
      have hroom : s.freeSlots ≠ 0 := by
        rw [ne_eq, ← isFull_iff h, hfull]
        exact Bool.false_ne_true
      have hbounded := h.bounded
      simp only [freeSlots] at hroom
      simp only [List.length_append, List.length_singleton]
      omega
  · obtain ⟨-, -, heq⟩ | ⟨-, heq⟩ := takeLocked_cases s j <;> rw [heq]
    · exact ⟨h.pos, h.bounded, h.unnotified⟩
    · refine ⟨h.pos, ?_, h.unnotified⟩
      have hbounded := h.bounded
      simp only [List.length_tail]
      omega
  · -- `stop`, and the producers that it notifies
    refine ⟨hmax ▸ h.pos, ?_, of_not_running hr⟩
    rw [hmax, hq]
    exact h.bounded

/-- A producer that waits after another one has left waited before. -/
theorem Blocked.of_set {i : ℕ} {queue : List τ} {workers : List Worker}
    (h : ({ s with
      queue := queue
      workers := workers
      producers := s.producers.set i .outside } : ThreadPool τ).Blocked) : s.Blocked := by
  obtain ⟨p, hp, hw⟩ := h
  rcases List.mem_or_eq_of_mem_set hp with hp | rfl
  · exact ⟨p, hp, hw⟩
  · cases hw

/-- **One action keeps the wakeups exactly if it takes no task from under a waiting producer.** -/
theorem KeepsWakeups.step_iff {a : Action τ} (h : s.Inv) (hk : s.KeepsWakeups)
    (hs : s.step a = some t) : t.KeepsWakeups ↔ s.TakesUnblocked a := by
  have ht := h.step hs
  rw [h.keepsWakeups_iff_waiting] at hk
  rw [ht.keepsWakeups_iff_waiting]
  obtain ⟨rfl, ha⟩ | ⟨i, f, j, hrun, ha⟩ | ⟨j, rfl, ha⟩ | ⟨hr, -, -, ha⟩ := step_cases hs
  · exact iff_of_true hk ha
  · refine iff_of_true ?_ ha
    obtain ⟨hfull, -, rfl⟩ | ⟨hr, rfl⟩ | ⟨hfull, hr, workers, rfl⟩ := runLocked_cases hrun
    · exact fun _ _ => (isFull_iff h).mp hfull
    · exact of_not_running hr
    · -- beside a queue with room nobody was waiting
      intro _ hb
      have hfree := hk hr hb.of_set
      rw [← isFull_iff h, hfull] at hfree
      cases hfree
  · rw [ha]
    obtain ⟨hq, -, heq⟩ | ⟨hq, heq⟩ := takeLocked_cases s j <;> rw [heq]
    · exact iff_of_true hk fun _ hne => absurd hq hne
    · -- a task is taken: the queue has room now, and nobody is notified
      have hbounded := h.bounded
      refine ⟨fun hfree hr hne hb => ?_, fun hno hr hb => absurd hb (hno hr (hq hr))⟩
      have hzero := hfree hr hb
      have hlen : 0 < s.queue.length := List.length_pos_iff.mpr hne
      simp only [freeSlots, List.length_tail] at hzero
      omega
  · exact iff_of_true (of_not_running hr) ha

/-- **When the pool loses no wakeup.** In every run of a bounded pool, with any number of workers
and producers, no producer is left waiting beside a queue with room if and only if no worker takes a
task while a producer waits. -/
theorem keepsWakeups_iff {maxSize numThreads numProducers : ℕ} (hmax : 1 ≤ maxSize)
    {as : List (Action τ)}
    (h : Runs.exec step (start maxSize numThreads numProducers) as = some s) :
    Runs.Always step KeepsWakeups (start maxSize numThreads numProducers) as ↔
      Runs.Guarded step TakesUnblocked (start maxSize numThreads numProducers) as := by
  have hinv := inv_start (τ := τ) hmax numThreads numProducers
  refine Runs.always_iff_guarded hinv (hinv.keepsWakeups_iff_waiting.mpr ?_)
    (fun _ _ _ h hs => h.step hs) (fun _ _ _ h hk hs => hk.step_iff h hs) h
  -- at the start no producer waits
  rintro - ⟨p, hp, hw⟩
  rw [List.eq_of_mem_replicate hp] at hw
  cases hw

/-- A producer waits beside a full queue, from which nothing is taken before `stop()`. -/
def stopped : List (Action ℕ) :=
  [.take 0, .run 0 5 0, .run 1 6 0, .resumeRun 1 0, .stop, .resumeTake 0, .notifyAll,
    .resumeRun 1 0]

/-- A producer waits beside a full queue, and the worker takes the task. -/
def robbed : List (Action ℕ) := [.run 0 5 0, .run 1 6 0, .take 0]

/-- The theorem at work: in the first run no wakeup is lost, in the second one is. -/
theorem keepsWakeups_iff_two :
    (∃ s : ThreadPool ℕ, Runs.exec step (start 1 1 2) stopped = some s ∧
      Runs.Always step KeepsWakeups (start 1 1 2) stopped) ∧
    ∃ s : ThreadPool ℕ, Runs.exec step (start 1 1 2) robbed = some s ∧
      ¬ Runs.Always step KeepsWakeups (start 1 1 2) robbed := by
  constructor
  · have hsome : (Runs.exec step (start 1 1 2 : ThreadPool ℕ) stopped).isSome = true := by
      decide +kernel
    obtain ⟨s, hs⟩ := Option.isSome_iff_exists.mp hsome
    exact ⟨s, hs, (keepsWakeups_iff (by decide) hs).mpr (by decide +kernel)⟩
  · have hsome : (Runs.exec step (start 1 1 2 : ThreadPool ℕ) robbed).isSome = true := by
      decide +kernel
    obtain ⟨s, hs⟩ := Option.isSome_iff_exists.mp hsome
    have hnot : ¬ Runs.Guarded step TakesUnblocked (start 1 1 2 : ThreadPool ℕ) robbed := by
      decide +kernel
    exact ⟨s, hs, fun hall => hnot ((keepsWakeups_iff (by decide) hs).mp hall)⟩

/-- **A full queue, a blocked producer and a drain**: the worker waits for a task, the producer for
room that is there, and nobody will wake them up. -/
theorem not_keepsWakeups : ¬ ∀ (maxSize numThreads numProducers : ℕ) (as : List (Action ℕ))
    (s : ThreadPool ℕ), 1 ≤ maxSize →
    Runs.exec step (start maxSize numThreads numProducers) as = some s → s.KeepsWakeups := by
  intro hall
  have hrun : (Runs.exec step (start 1 1 2 : ThreadPool ℕ)
      [.run 0 5 0, .run 1 6 0, .take 0, .take 0]).map (fun s => (s.running,
        s.producers.any Producer.isWaiting, s.producers.countP Producer.isNotified, s.workers,
        s.freeSlots)) = some (true, true, 0, [.waiting], 1) := by
    decide +kernel
  obtain ⟨s, hs, hobs⟩ := Option.map_eq_some_iff.mp hrun
  simp only [Prod.mk.injEq] at hobs
  obtain ⟨hr, hwaiting, hnotified, hworkers, hfree⟩ := hobs
  have hblocked : s.Blocked := List.any_eq_true.mp hwaiting
  have hstuck := (hall 1 1 2 _ s (by decide) hs).notStuck hr hblocked hnotified fun k hk => by
    rw [hworkers] at hk
    exact List.mem_singleton.mp hk
  rw [hfree] at hstuck
  cases hstuck

end ThreadPool

end Muduo
