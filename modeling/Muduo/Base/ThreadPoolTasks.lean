import Mathlib.Data.List.Basic
import Mathlib.Logic.Function.Basic
import Muduo.Foundations.Condition
import Muduo.Foundations.Runs

/-! # The tasks of a `ThreadPool`

`muduo/base/ThreadPool.cc` in smaller steps than `ThreadPool`, which knows neither who holds
`mutex_` nor what becomes of a task. Here every access to `running_` is a step of its own, since
`stop` writes it without the lock; the lock is taken and released; and a thread of the pool executes
what it takes. A task may call `run` and `stop` as any other thread may. At the end of `stop` the
thread waits for all the `threads_`: a task that has called it waits for its own thread and never
goes on here, where `pthread_join` answers `EDEADLK`; and a second `stop`, which goes on here, fails
the assertion `!joined_` of `Thread::join`.

**`TaskPool.accounts_of_exec`**: every task that `run` accepts is in the queue or was taken, in
order, and what was taken is executed once by the thread that took it. -/

namespace Muduo

/-- Whether a thread is one of `threads_`. -/
inductive Caller
  | producer
  | worker
deriving DecidableEq, Repr

/-- A call of `run(f)`; an empty `std::function` is no task. -/
structure Call (τ : Type*) where
  who : Caller
  /-- `f`. -/
  task : Option τ
  /-- Whether it started after `stop()` had cleared `running_`. -/
  late : Bool
deriving DecidableEq, Repr

/-- Where a thread is in `run`. -/
inductive RunPc
  /-- Before it holds `mutex_`. -/
  | lock
  /-- At `isFull()` in the test of the loop. -/
  | test
  /-- At `running_` in the test of the loop. -/
  | testRunning
  /-- Before `notFull_.wait()`. -/
  | enter
  /-- In `notFull_.wait()`. -/
  | wait
  /-- At `if (!running_) return`. -/
  | running
  /-- At the assertion and `push_back`. -/
  | push
  | notify
  /-- Before it releases `mutex_`. -/
  | unlock
deriving DecidableEq, Repr

/-- Where a thread is in `stop`, after it has cleared `running_`. -/
inductive StopPc
  | lock
  | notifyAll
  | unlock
  | join
deriving DecidableEq, Repr

/-- Where a thread of the pool is in `take`. -/
inductive TakePc (τ : Type*)
  | lock
  /-- At `queue_.empty()` in the test of the loop. -/
  | test
  /-- At `running_` in the test of the loop. -/
  | testRunning
  /-- Before `notEmpty_.wait()`. -/
  | enter
  /-- In `notEmpty_.wait()`. -/
  | wait
  | pop
  /-- Before it releases `mutex_` and returns the task. -/
  | unlock (task : Option τ)
deriving DecidableEq, Repr

/-- Where a thread is. -/
inductive Pc (τ : Type*)
  /-- In code of the user's: outside the pool, or in a task. -/
  | idle (who : Caller)
  | run (c : Call τ) (p : RunPc)
  | stop (who : Caller) (p : StopPc)
  /-- At `while(running_)` in `runInThread`. -/
  | loop
  | take (p : TakePc τ)
  /-- At `if(task=take())task()` in `runInThread`. -/
  | returned (task : Option τ)
  | finished
deriving DecidableEq, Repr

namespace Pc

variable {τ : Type*}

/-- What kind of thread it is. -/
def who : Pc τ → Caller
  | idle who => who
  | run c _ => c.who
  | stop who _ => who
  | _ => .worker

/-- It holds `mutex_`. -/
def locked : Pc τ → Bool
  | run _ .lock => false
  | run _ .wait => false
  | run _ _ => true
  | stop _ .notifyAll => true
  | stop _ .unlock => true
  | take .lock => false
  | take .wait => false
  | take _ => true
  | _ => false

/-- The task that it has taken and not executed yet. -/
def inHand : Pc τ → List τ
  | take (.unlock task) => task.toList
  | returned task => task.toList
  | _ => []

end Pc

/-- `ThreadPool`, with the threads that use it. -/
structure TaskPool (θ τ : Type*) where
  /-- `maxQueueSize_`. -/
  maxQueueSize : ℕ
  /-- `threads_`. -/
  threads : List θ
  /-- `queue_`. -/
  queue : List (Option τ)
  /-- `running_`. -/
  running : Bool
  /-- The thread that holds `mutex_`. -/
  mutex : Option θ
  /-- `notEmpty_`. -/
  notEmpty : Condition θ
  /-- `notFull_`. -/
  notFull : Condition θ
  pc : θ → Pc τ
  /-- An assertion has failed. -/
  aborted : Bool
  /-- The calls of `run` whose task went into the queue, in order. -/
  accepted : List (Call τ)
  /-- What was taken, in order, and by whom. -/
  taken : List (θ × Option τ)
  /-- The tasks that were executed, in order, and by whom. -/
  executed : List (θ × τ)

namespace TaskPool

variable {θ τ : Type*} [DecidableEq θ]

/-- After `setMaxQueueSize(maxSize)` and `start`, which creates `threads`. -/
def start (maxSize : ℕ) (threads : List θ) : TaskPool θ τ where
  maxQueueSize := maxSize
  threads := threads
  queue := []
  running := true
  mutex := none
  notEmpty := .new
  notFull := .new
  pc t := if t ∈ threads then .loop else .idle .producer
  aborted := false
  accepted := []
  taken := []
  executed := []

/-- The thread `t` goes on at `p`. -/
def goto (s : TaskPool θ τ) (t : θ) (p : Pc τ) : TaskPool θ τ :=
  { s with pc := Function.update s.pc t p }

/-- The thread `t` locks `mutex_`. -/
def lock (s : TaskPool θ τ) (t : θ) (p : Pc τ) : Option (TaskPool θ τ) :=
  if s.mutex = none then some { s.goto t p with mutex := some t } else none

/-- The thread `t` unlocks `mutex_`. -/
def unlock (s : TaskPool θ τ) (t : θ) (p : Pc τ) : TaskPool θ τ := { s.goto t p with mutex := none }

/-- `queue_.size()>=maxQueueSize_&&maxQueueSize_>0`. -/
def full (s : TaskPool θ τ) : Bool :=
  decide (s.queue.length ≥ s.maxQueueSize) && decide (s.maxQueueSize > 0)

/-- `isFull()`, which asserts that the thread holds `mutex_`. -/
def isFull (s : TaskPool θ τ) (t : θ) : Option Bool :=
  if s.mutex = some t then some s.full else none

/-- The next step of the thread `t` in `run`. -/
def run (s : TaskPool θ τ) (t : θ) (woken : Finset θ) (c : Call τ) :
    RunPc → Option (TaskPool θ τ)
  | .lock => s.lock t (.run c .test)
  | .test =>
    match s.isFull t with
    | some true => some (s.goto t (.run c .testRunning))
    | some false => some (s.goto t (.run c .running))
    | none => some { s with aborted := true }
  | .testRunning => some (s.goto t (.run c (if s.running then .enter else .running)))
  | .enter => some { s.unlock t (.run c .wait) with notFull := s.notFull.wait t }
  | .wait => { s with notFull := s.notFull.resume t }.lock t (.run c .test)
  | .running => some (s.goto t (.run c (if s.running then .push else .unlock)))
  | .push =>
    match s.isFull t with
    | some false => some { s.goto t (.run c .notify) with
        queue := s.queue ++ [c.task], accepted := s.accepted ++ [c] }
    | _ => some { s with aborted := true }
  | .notify => (s.notEmpty.notify woken).map fun n =>
      { s.goto t (.run c .unlock) with notEmpty := n }
  | .unlock => some (s.unlock t (.idle c.who))

/-- The next step of the thread `t` in `stop`. -/
def stop (s : TaskPool θ τ) (t : θ) (who : Caller) : StopPc → Option (TaskPool θ τ)
  | .lock => s.lock t (.stop who .notifyAll)
  | .notifyAll => some { s.goto t (.stop who .unlock) with
      notEmpty := s.notEmpty.notifyAll, notFull := s.notFull.notifyAll }
  | .unlock => some (s.unlock t (.stop who .join))
  | .join =>
    if s.threads.all (fun w => s.pc w matches .finished) then some (s.goto t (.idle who)) else none

/-- The next step of the thread `t` in `take`. -/
def take (s : TaskPool θ τ) (t : θ) : TakePc τ → Option (TaskPool θ τ)
  | .lock => s.lock t (.take .test)
  | .test => some (s.goto t (.take (if s.queue.isEmpty then .testRunning else .pop)))
  | .testRunning => some (s.goto t (.take (if s.running then .enter else .pop)))
  | .enter => some { s.unlock t (.take .wait) with notEmpty := s.notEmpty.wait t }
  | .wait => { s with notEmpty := s.notEmpty.resume t }.lock t (.take .test)
  | .pop =>
    match s.queue with
    | [] => some (s.goto t (.take (.unlock none)))
    | x :: rest => some { s.goto t (.take (.unlock x)) with
        queue := rest, taken := s.taken ++ [(t, x)] }
  | .unlock task => some (s.unlock t (.returned task))

/-- What can happen. -/
inductive Action (θ τ : Type*)
  /-- The thread calls `run(f)`. -/
  | run (t : θ) (f : Option τ)
  /-- The thread calls `stop()`, which clears `running_`. -/
  | stop (t : θ)
  /-- The thread makes its next step in the code of the pool; a notification wakes `woken`. -/
  | next (t : θ) (woken : Finset θ)
  /-- The task that the thread executes returns. -/
  | taskReturns (t : θ)
  /-- The task that the thread executes throws, which ends the thread. -/
  | taskThrows (t : θ)

/-- The next step of the thread `t`. -/
def next (s : TaskPool θ τ) (t : θ) (woken : Finset θ) : Option (TaskPool θ τ) :=
  match s.pc t with
  | .idle _ => none
  | .run c p => s.run t woken c p
  | .stop who p => s.stop t who p
  | .loop => some (s.goto t (if s.running then .take .lock else .finished))
  | .take p => s.take t p
  | .returned none => some (s.goto t .loop)
  | .returned (some f) =>
    some { s.goto t (.idle .worker) with executed := s.executed ++ [(t, f)] }
  | .finished => none

/-- One action. After a failed assertion nothing happens. -/
def step (s : TaskPool θ τ) (a : Action θ τ) : Option (TaskPool θ τ) :=
  if s.aborted then none else
  match a with
  | .run t f =>
    match s.pc t with
    | .idle who =>
      -- without threads, `run(f)` just calls `f`
      if s.threads.isEmpty then some { s with executed := s.executed ++ f.toList.map (t, ·) }
      else some (s.goto t (.run ⟨who, f, !s.running⟩ .lock))
    | _ => none
  | .stop t =>
    match s.pc t with
    | .idle who => some { s.goto t (.stop who .lock) with running := false }
    | _ => none
  | .next t woken => s.next t woken
  | .taskReturns t =>
    match s.pc t with
    | .idle .worker => some (s.goto t .loop)
    | _ => none
  | .taskThrows t =>
    match s.pc t with
    | .idle .worker => some (s.goto t .finished)
    | _ => none

/-! ## The account of the tasks -/

/-- The tasks that a thread took, in order, without the empty ones. -/
def takenBy (s : TaskPool θ τ) (t : θ) : List τ :=
  s.taken.filterMap fun x => if x.1 = t then x.2 else none

/-- The tasks that a thread executed, in order. -/
def executedBy (s : TaskPool θ τ) (t : θ) : List τ :=
  s.executed.filterMap fun x => if x.1 = t then some x.2 else none

/-- Every task is accounted for. -/
structure Accounts (maxSize : ℕ) (threads : List θ) (s : TaskPool θ τ) : Prop where
  bounded : 0 < maxSize → s.queue.length ≤ maxSize
  /-- No assertion fails. -/
  asserts : s.aborted = false
  /-- What was accepted was taken in this order, or is still in the queue. -/
  order : s.accepted.map Call.task = s.taken.map Prod.snd ++ s.queue
  /-- Every thread executes what it takes, once and in order; the last one it may have to do. -/
  executes : ∀ t, s.takenBy t = s.executedBy t ++ (s.pc t).inHand
  /-- It does so with its next steps, whatever the others do. -/
  proceeds : ∀ t f, (s.pc t).inHand = [f] → ∃ n s',
    Runs.exec step s (List.replicate n (.next t ∅)) = some s' ∧
      s'.executed = s.executed ++ [(t, f)]
  /-- Only threads of the pool take and execute. -/
  workers : (∀ x ∈ s.taken, x.1 ∈ threads) ∧ ∀ x ∈ s.executed, x.1 ∈ threads
  /-- A call of `run` that starts after `stop` has cleared `running_` accepts nothing. -/
  late : ∀ c ∈ s.accepted, c.late = false

/-! ## The invariant -/

/-- What holds of the state that the threads share. -/
structure Shared (maxSize : ℕ) (threads : List θ) (s : TaskPool θ τ) : Prop where
  maxSize_eq : s.maxQueueSize = maxSize
  threads_eq : s.threads = threads
  bounded : 0 < maxSize → s.queue.length ≤ maxSize
  asserts : s.aborted = false
  order : s.accepted.map Call.task = s.taken.map Prod.snd ++ s.queue
  takers : ∀ x ∈ s.taken, x.1 ∈ threads
  executers : ∀ x ∈ s.executed, x.1 ∈ threads
  late : ∀ c ∈ s.accepted, c.late = false

/-- What a thread in the call `c` of `run` relies on: behind the loop there is room or the pool is
stopped, and at `push_back` there is room. -/
def RunOk (s : TaskPool θ τ) (c : Call τ) : RunPc → Prop
  | .running => s.running = true → s.full = false
  | .push => s.full = false ∧ c.late = false
  | _ => True

/-- What holds of a thread. -/
structure ThreadOk (threads : List θ) (s : TaskPool θ τ) (t : θ) : Prop where
  locked : (s.pc t).locked = true ↔ s.mutex = some t
  who : (s.pc t).who = .worker ↔ t ∈ threads
  late : ∀ c p, s.pc t = .run c p → c.late = true → s.running = false
  run : ∀ c p, s.pc t = .run c p → s.RunOk c p
  hand : s.takenBy t = s.executedBy t ++ (s.pc t).inHand

/-- The invariant. -/
structure Inv (maxSize : ℕ) (threads : List θ) (s : TaskPool θ τ) : Prop where
  shared : s.Shared maxSize threads
  thread : ∀ t, s.ThreadOk threads t

/-- What a step of the thread `t` leaves to the others. -/
structure Frame (t : θ) (s s' : TaskPool θ τ) : Prop where
  running : s'.running = true → s.running = true
  maxQueueSize : s'.maxQueueSize = s.maxQueueSize
  pc : ∀ u ≠ t, s'.pc u = s.pc u
  mutex : ∀ u ≠ t, s'.mutex = some u ↔ s.mutex = some u
  /-- Only who holds the lock changes the queue. -/
  queue : ∀ u ≠ t, s.mutex = some u → s'.queue = s.queue
  taken : ∀ u ≠ t, s'.takenBy u = s.takenBy u
  executed : ∀ u ≠ t, s'.executedBy u = s.executedBy u

variable {maxSize : ℕ} {threads : List θ} {s s' : TaskPool θ τ} {t u : θ}

theorem ThreadOk.frame (h : s.ThreadOk threads u) (hf : Frame t s s') (hu : u ≠ t) :
    s'.ThreadOk threads u := by
  have hstop (hr : s.running = false) : s'.running = false :=
    Bool.eq_false_iff.mpr fun hr' => Bool.false_ne_true (hr.symm.trans (hf.running hr'))
  refine ⟨?_, ?_, fun c p hp hl => ?_, fun c p hp => ?_, ?_⟩
  · rw [hf.pc u hu, hf.mutex u hu]
    exact h.locked
  · rw [hf.pc u hu]
    exact h.who
  · rw [hf.pc u hu] at hp
    exact hstop (h.late c p hp hl)
  · rw [hf.pc u hu] at hp
    have hrun := h.run c p hp
    -- behind the test of the loop `u` holds the lock
    have hfull (hl : (s.pc u).locked = true) : s'.full = s.full := by
      rw [full, full, hf.maxQueueSize, hf.queue u hu (h.locked.mp hl)]
    cases p with
    | running =>
      intro hr
      rw [hfull (by rw [hp]; rfl)]
      exact hrun (hf.running hr)
    | push =>
      refine ⟨?_, hrun.2⟩
      rw [hfull (by rw [hp]; rfl)]
      exact hrun.1
    | _ => trivial
  · rw [hf.pc u hu, hf.taken u hu, hf.executed u hu]
    exact h.hand

/-- What a thread at `p` needs. -/
theorem threadOk_of_pc {p : Pc τ} (hp : s.pc t = p) (hlocked : p.locked = true ↔ s.mutex = some t)
    (hwho : p.who = .worker ↔ t ∈ threads)
    (hrun : ∀ c q, p = .run c q → (c.late = true → s.running = false) ∧ s.RunOk c q)
    (hhand : s.takenBy t = s.executedBy t ++ p.inHand) : s.ThreadOk threads t := by
  subst hp
  exact ⟨hlocked, hwho, fun c q hq => (hrun c q hq).1, fun c q hq => (hrun c q hq).2, hhand⟩

/-- A step is fine if it is fine for the thread that makes it and leaves the others what they rely
on. -/
theorem Inv.of_frame (h : s.Inv maxSize threads) (hf : Frame t s s')
    (hshared : s'.Shared maxSize threads) (hok : s'.ThreadOk threads t) :
    s'.Inv maxSize threads := by
  refine ⟨hshared, fun u => ?_⟩
  by_cases hu : u = t
  · exact hu ▸ hok
  · exact (h.thread u).frame hf hu

/-- **A step within the code**: the thread `t` goes on at `p`, and nothing else changes but the lock
and who waits. -/
theorem Inv.move (h : s.Inv maxSize threads) {p : Pc τ} {m : Option θ} {a b : Condition θ}
    (hm : ∀ u ≠ t, m = some u ↔ s.mutex = some u) (hlocked : p.locked = true ↔ m = some t)
    (hwho : p.who = (s.pc t).who) (hhand : p.inHand = (s.pc t).inHand)
    (hrun : ∀ c q, p = .run c q → (c.late = true → s.running = false) ∧ s.RunOk c q) :
    Inv maxSize threads { s.goto t p with mutex := m, notEmpty := a, notFull := b } := by
  obtain ⟨h1, h2, h3, h4, h5, h6, h7, h8⟩ := h.shared
  refine h.of_frame (t := t) ⟨id, rfl, fun u hu => Function.update_of_ne hu _ _, hm,
    fun _ _ _ => rfl, fun _ _ => rfl, fun _ _ => rfl⟩ ⟨h1, h2, h3, h4, h5, h6, h7, h8⟩ ?_
  refine threadOk_of_pc (Function.update_self _ _ _) hlocked ?_ hrun ?_
  · rw [hwho]
    exact (h.thread t).who
  · rw [hhand]
    exact (h.thread t).hand

section Moves

variable {p : Pc τ} {a b : Condition θ}

theorem Inv.goto (h : s.Inv maxSize threads) (hlocked : p.locked = (s.pc t).locked)
    (hwho : p.who = (s.pc t).who) (hhand : p.inHand = (s.pc t).inHand)
    (hrun : ∀ c q, p = .run c q → (c.late = true → s.running = false) ∧ s.RunOk c q) :
    Inv maxSize threads { s.goto t p with notEmpty := a, notFull := b } :=
  h.move (fun _ _ => Iff.rfl) (hlocked ▸ (h.thread t).locked) hwho hhand hrun

theorem Inv.lock (h : s.Inv maxSize threads)
    (hs : { s with notEmpty := a, notFull := b }.lock t p = some s') (hp : p.locked = true)
    (hwho : p.who = (s.pc t).who) (hhand : p.inHand = (s.pc t).inHand)
    (hrun : ∀ c q, p = .run c q → (c.late = true → s.running = false) ∧ s.RunOk c q) :
    s'.Inv maxSize threads := by
  rw [TaskPool.lock, Option.ite_none_right_eq_some] at hs
  obtain ⟨hfree, hs⟩ := hs
  have hfree : s.mutex = none := hfree
  cases hs
  refine h.move (fun u hu => ?_) (iff_of_true hp rfl) hwho hhand hrun
  rw [hfree, Option.some_inj]
  exact iff_of_false hu.symm nofun

theorem Inv.unlock (h : s.Inv maxSize threads) (hl : (s.pc t).locked = true)
    (hp : p.locked = false) (hwho : p.who = (s.pc t).who) (hhand : p.inHand = (s.pc t).inHand)
    (hrun : ∀ c q, p = .run c q → (c.late = true → s.running = false) ∧ s.RunOk c q) :
    Inv maxSize threads { s.unlock t p with notEmpty := a, notFull := b } := by
  refine h.move (fun u hu => ?_) (iff_of_false (Bool.eq_false_iff.mp hp) nofun) hwho hhand hrun
  rw [(h.thread t).locked.mp hl, Option.some_inj]
  exact iff_of_false nofun hu.symm

end Moves

/-- `isFull` does not fail its assertion where the thread holds the lock. -/
theorem Inv.isFull (h : s.Inv maxSize threads) (hl : (s.pc t).locked = true) :
    s.isFull t = some s.full :=
  if_pos ((h.thread t).locked.mp hl)

omit [DecidableEq θ] in
theorem Shared.full_eq_false (h : s.Shared maxSize threads) (hfull : s.full = false)
    (hpos : 0 < maxSize) : s.queue.length < maxSize := by
  rw [full, h.maxSize_eq, Bool.and_eq_false_iff, decide_eq_false_iff_not,
    decide_eq_false_iff_not] at hfull
  omega

/-- `push_back` in `run`. -/
theorem Inv.push (h : s.Inv maxSize threads) {c : Call τ} (hpc : s.pc t = .run c .push) :
    Inv maxSize threads { s.goto t (.run c .notify) with
      queue := s.queue ++ [c.task], accepted := s.accepted ++ [c] } := by
  have hl : (s.pc t).locked = true := by rw [hpc]; rfl
  have hmutex := (h.thread t).locked.mp hl
  have hwho := (h.thread t).who
  have hhand := (h.thread t).hand
  rw [hpc] at hwho hhand
  obtain ⟨hfull, hearly⟩ := (h.thread t).run c .push hpc
  obtain ⟨h1, h2, -, h4, h5, h6, h7, h8⟩ := h.shared
  refine h.of_frame (t := t) ⟨id, rfl, fun u hu => Function.update_of_ne hu _ _,
    fun _ _ => Iff.rfl, fun u hu hm => ?_, fun _ _ => rfl, fun _ _ => rfl⟩
    ⟨h1, h2, fun hpos => ?_, h4, ?_, h6, h7, fun d hd => ?_⟩
    (threadOk_of_pc (Function.update_self _ _ _) (iff_of_true rfl hmutex) hwho
      (fun d q hq => ?_) hhand)
  · exact absurd (Option.some.inj (hm.symm.trans hmutex)) hu
  · -- there was room
    have hlt := h.shared.full_eq_false hfull hpos
    rw [List.length_append, List.length_singleton]
    omega
  · rw [List.map_append, h5, List.append_assoc]
    rfl
  · rcases List.mem_append.mp hd with hd | hd
    · exact h8 d hd
    · exact List.mem_singleton.mp hd ▸ hearly
  · obtain ⟨rfl, rfl⟩ := Pc.run.inj hq
    exact ⟨(h.thread t).late c .push hpc, trivial⟩

/-- **A step in `run`** keeps the invariant. -/
theorem Inv.run (h : s.Inv maxSize threads) {c : Call τ} {p : RunPc} {woken : Finset θ}
    (hpc : s.pc t = .run c p) (hs : s.run t woken c p = some s') : s'.Inv maxSize threads := by
  have hlate := (h.thread t).late c p hpc
  have hok := (h.thread t).run c p hpc
  -- where a thread goes on in `run`
  have hgo {q : RunPc} (hq : s.RunOk c q) (d : Call τ) (r : RunPc)
      (heq : (.run c q : Pc τ) = .run d r) : (d.late = true → s.running = false) ∧ s.RunOk d r := by
    obtain ⟨rfl, rfl⟩ := Pc.run.inj heq
    exact ⟨hlate, hq⟩
  cases p with
  | lock => exact h.lock hs rfl (by rw [hpc]; rfl) (by rw [hpc]; rfl) (hgo trivial)
  | test =>
    have hl : (s.pc t).locked = true := by rw [hpc]; rfl
    simp only [TaskPool.run, h.isFull hl] at hs
    cases hfull : s.full with
    | true =>
      rw [hfull] at hs
      cases hs
      exact h.goto (by rw [hpc]; rfl) (by rw [hpc]; rfl) (by rw [hpc]; rfl) (hgo trivial)
    | false =>
      rw [hfull] at hs
      cases hs
      exact h.goto (by rw [hpc]; rfl) (by rw [hpc]; rfl) (by rw [hpc]; rfl) (hgo fun _ => hfull)
  | testRunning =>
    cases hs
    split_ifs with hr
    · exact h.goto (by rw [hpc]; rfl) (by rw [hpc]; rfl) (by rw [hpc]; rfl) (hgo trivial)
    · exact h.goto (by rw [hpc]; rfl) (by rw [hpc]; rfl) (by rw [hpc]; rfl)
        (hgo fun hr' => absurd hr' hr)
  | enter =>
    cases hs
    exact h.unlock (by rw [hpc]; rfl) rfl (by rw [hpc]; rfl) (by rw [hpc]; rfl) (hgo trivial)
  | wait => exact h.lock hs rfl (by rw [hpc]; rfl) (by rw [hpc]; rfl) (hgo trivial)
  | running =>
    cases hs
    split_ifs with hr
    · -- the pool still runs, so the loop ended for the room
      have hearly : c.late = false :=
        Bool.eq_false_iff.mpr fun hl => Bool.false_ne_true ((hlate hl).symm.trans hr)
      exact h.goto (by rw [hpc]; rfl) (by rw [hpc]; rfl) (by rw [hpc]; rfl) (hgo ⟨hok hr, hearly⟩)
    · exact h.goto (by rw [hpc]; rfl) (by rw [hpc]; rfl) (by rw [hpc]; rfl) (hgo trivial)
  | push =>
    have hl : (s.pc t).locked = true := by rw [hpc]; rfl
    simp only [TaskPool.run, h.isFull hl, hok.1] at hs
    cases hs
    exact h.push hpc
  | notify =>
    obtain ⟨n, -, rfl⟩ := Option.map_eq_some_iff.mp hs
    exact h.goto (by rw [hpc]; rfl) (by rw [hpc]; rfl) (by rw [hpc]; rfl) (hgo trivial)
  | unlock =>
    cases hs
    exact h.unlock (by rw [hpc]; rfl) rfl (by rw [hpc]; rfl) (by rw [hpc]; rfl) nofun

/-- **A step in `stop`** keeps the invariant. -/
theorem Inv.stop (h : s.Inv maxSize threads) {who : Caller} {p : StopPc}
    (hpc : s.pc t = .stop who p) (hs : s.stop t who p = some s') : s'.Inv maxSize threads := by
  cases p with
  | lock => exact h.lock hs rfl (by rw [hpc]; rfl) (by rw [hpc]; rfl) nofun
  | notifyAll =>
    cases hs
    exact h.goto (by rw [hpc]; rfl) (by rw [hpc]; rfl) (by rw [hpc]; rfl) nofun
  | unlock =>
    cases hs
    exact h.unlock (by rw [hpc]; rfl) rfl (by rw [hpc]; rfl) (by rw [hpc]; rfl) nofun
  | join =>
    rw [TaskPool.stop, Option.ite_none_right_eq_some] at hs
    cases hs.2
    exact h.goto (by rw [hpc]; rfl) (by rw [hpc]; rfl) (by rw [hpc]; rfl) nofun

/-- The thread takes the first element. -/
theorem Inv.pop (h : s.Inv maxSize threads) {x : Option τ} {rest : List (Option τ)}
    (hpc : s.pc t = .take .pop) (hq : s.queue = x :: rest) :
    Inv maxSize threads { s.goto t (.take (.unlock x)) with
      queue := rest, taken := s.taken ++ [(t, x)] } := by
  have hl : (s.pc t).locked = true := by rw [hpc]; rfl
  have hmutex := (h.thread t).locked.mp hl
  have hwho := (h.thread t).who
  have hhand := (h.thread t).hand
  rw [hpc] at hwho hhand
  obtain ⟨h1, h2, h3, h4, h5, h6, h7, h8⟩ := h.shared
  rw [hq] at h3 h5
  refine h.of_frame (t := t) ⟨id, rfl, fun u hu => Function.update_of_ne hu _ _,
    fun _ _ => Iff.rfl, fun u hu hm => ?_, fun u hu => ?_, fun _ _ => rfl⟩
    ⟨h1, h2, fun hpos => (Nat.le_succ _).trans (h3 hpos), h4, ?_, fun y hy => ?_, h7, h8⟩
    (threadOk_of_pc (Function.update_self _ _ _) (iff_of_true rfl hmutex) hwho nofun ?_)
  · exact absurd (Option.some.inj (hm.symm.trans hmutex)) hu
  · simp [takenBy, List.filterMap_append, hu.symm]
  · show s.accepted.map Call.task = (s.taken ++ [(t, x)]).map Prod.snd ++ rest
    rw [h5, List.map_append, List.append_assoc]
    rfl
  · rcases List.mem_append.mp hy with hy | hy
    · exact h6 y hy
    · rw [List.mem_singleton.mp hy]
      exact hwho.mp rfl
  · -- what is taken is in hand
    have htaken : takenBy { s.goto t (.take (.unlock x)) with
        queue := rest, taken := s.taken ++ [(t, x)] } t = s.takenBy t ++ x.toList := by
      cases x <;> simp [takenBy, List.filterMap_append]
    rw [htaken, hhand]
    simp only [Pc.inHand, List.append_nil]
    rfl

/-- **A step in `take`** keeps the invariant. -/
theorem Inv.take (h : s.Inv maxSize threads) {p : TakePc τ} (hpc : s.pc t = .take p)
    (hs : s.take t p = some s') : s'.Inv maxSize threads := by
  cases p with
  | lock => exact h.lock hs rfl (by rw [hpc]; rfl) (by rw [hpc]; rfl) nofun
  | test =>
    cases hs
    split_ifs
    · exact h.goto (by rw [hpc]; rfl) (by rw [hpc]; rfl) (by rw [hpc]; rfl) nofun
    · exact h.goto (by rw [hpc]; rfl) (by rw [hpc]; rfl) (by rw [hpc]; rfl) nofun
  | testRunning =>
    cases hs
    split_ifs
    · exact h.goto (by rw [hpc]; rfl) (by rw [hpc]; rfl) (by rw [hpc]; rfl) nofun
    · exact h.goto (by rw [hpc]; rfl) (by rw [hpc]; rfl) (by rw [hpc]; rfl) nofun
  | enter =>
    cases hs
    exact h.unlock (by rw [hpc]; rfl) rfl (by rw [hpc]; rfl) (by rw [hpc]; rfl) nofun
  | wait => exact h.lock hs rfl (by rw [hpc]; rfl) (by rw [hpc]; rfl) nofun
  | pop =>
    rw [TaskPool.take] at hs
    split at hs
    · cases hs
      exact h.goto (by rw [hpc]; rfl) (by rw [hpc]; rfl) (by rw [hpc]; rfl) nofun
    · next x rest hq =>
      cases hs
      exact h.pop hpc hq
  | unlock task =>
    cases hs
    exact h.unlock (by rw [hpc]; rfl) rfl (by rw [hpc]; rfl) (by rw [hpc]; rfl) nofun

/-- The thread executes the task that it has in hand. -/
theorem Inv.execute (h : s.Inv maxSize threads) {f : τ} (hpc : s.pc t = .returned (some f)) :
    Inv maxSize threads { s.goto t (.idle .worker) with executed := s.executed ++ [(t, f)] } := by
  have hlocked := (h.thread t).locked
  have hwho := (h.thread t).who
  have hhand := (h.thread t).hand
  rw [hpc] at hlocked hwho hhand
  obtain ⟨h1, h2, h3, h4, h5, h6, h7, h8⟩ := h.shared
  refine h.of_frame (t := t) ⟨id, rfl, fun u hu => Function.update_of_ne hu _ _,
    fun _ _ => Iff.rfl, fun _ _ _ => rfl, fun _ _ => rfl, fun u hu => ?_⟩
    ⟨h1, h2, h3, h4, h5, h6, fun y hy => ?_, h8⟩
    (threadOk_of_pc (Function.update_self _ _ _) hlocked hwho nofun ?_)
  · simp [executedBy, List.filterMap_append, hu.symm]
  · rcases List.mem_append.mp hy with hy | hy
    · exact h7 y hy
    · rw [List.mem_singleton.mp hy]
      exact hwho.mp rfl
  · have hexecuted : executedBy { s.goto t (.idle .worker) with
        executed := s.executed ++ [(t, f)] } t = s.executedBy t ++ [f] := by
      simp [executedBy, List.filterMap_append]
    rw [hexecuted]
    simp only [Pc.inHand, List.append_nil]
    exact hhand

/-- **The next step of a thread** keeps the invariant. -/
theorem Inv.next (h : s.Inv maxSize threads) {woken : Finset θ} (hs : s.next t woken = some s') :
    s'.Inv maxSize threads := by
  rw [TaskPool.next] at hs
  split at hs
  · cases hs
  · next c p hpc => exact h.run hpc hs
  · next who p hpc => exact h.stop hpc hs
  · next hpc =>
    cases hs
    split_ifs
    · exact h.goto (by rw [hpc]; rfl) (by rw [hpc]; rfl) (by rw [hpc]; rfl) nofun
    · exact h.goto (by rw [hpc]; rfl) (by rw [hpc]; rfl) (by rw [hpc]; rfl) nofun
  · next p hpc => exact h.take hpc hs
  · next hpc =>
    cases hs
    exact h.goto (by rw [hpc]; rfl) (by rw [hpc]; rfl) (by rw [hpc]; rfl) nofun
  · next f hpc =>
    cases hs
    exact h.execute hpc
  · cases hs

/-- `stop` clears `running_` without the lock. -/
theorem Inv.clearRunning (h : s.Inv maxSize threads) :
    Inv maxSize threads { s with running := false } := by
  obtain ⟨h1, h2, h3, h4, h5, h6, h7, h8⟩ := h.shared
  refine ⟨⟨h1, h2, h3, h4, h5, h6, h7, h8⟩, fun t => ?_⟩
  obtain ⟨hlocked, hwho, -, hrun, hhand⟩ := h.thread t
  refine ⟨hlocked, hwho, fun _ _ _ _ => rfl, fun c p hp => ?_, hhand⟩
  have hok := hrun c p hp
  cases p with
  | running => exact nofun
  | push => exact hok
  | _ => trivial

/-- **Every action** keeps the invariant of a pool with threads. -/
theorem Inv.step (hne : threads ≠ []) (h : s.Inv maxSize threads) {a : Action θ τ}
    (hs : s.step a = some s') : s'.Inv maxSize threads := by
  have hrunning : s.aborted ≠ true := Bool.eq_false_iff.mp h.shared.asserts
  cases a with
  | run t f =>
    rw [TaskPool.step, if_neg hrunning] at hs
    split at hs
    · next who hpc =>
      have hthreads : s.threads.isEmpty = false := by
        rw [h.shared.threads_eq, List.isEmpty_eq_false_iff]
        exact hne
      rw [hthreads, if_neg Bool.false_ne_true] at hs
      cases hs
      refine h.goto (by rw [hpc]; rfl) (by rw [hpc]; rfl) (by rw [hpc]; rfl) fun c q hq => ?_
      -- the call is late if the pool was stopped before
      obtain ⟨rfl, rfl⟩ := Pc.run.inj hq
      exact ⟨fun hl => by simpa using hl, trivial⟩
    · cases hs
  | stop t =>
    rw [TaskPool.step, if_neg hrunning] at hs
    split at hs
    · next who hpc =>
      cases hs
      have hpc' : ({ s with running := false } : TaskPool θ τ).pc t = .idle who := hpc
      exact h.clearRunning.goto (by rw [hpc']; rfl) (by rw [hpc']; rfl) (by rw [hpc']; rfl) nofun
    · cases hs
  | next t woken =>
    rw [TaskPool.step, if_neg hrunning] at hs
    exact h.next hs
  | taskReturns t =>
    rw [TaskPool.step, if_neg hrunning] at hs
    split at hs
    · next hpc =>
      cases hs
      exact h.goto (by rw [hpc]; rfl) (by rw [hpc]; rfl) (by rw [hpc]; rfl) nofun
    · cases hs
  | taskThrows t =>
    rw [TaskPool.step, if_neg hrunning] at hs
    split at hs
    · next hpc =>
      cases hs
      exact h.goto (by rw [hpc]; rfl) (by rw [hpc]; rfl) (by rw [hpc]; rfl) nofun
    · cases hs

theorem inv_start : (start maxSize threads : TaskPool θ τ).Inv maxSize threads := by
  refine ⟨⟨rfl, rfl, fun _ => Nat.zero_le _, rfl, rfl, nofun, nofun, nofun⟩, fun t => ?_⟩
  by_cases ht : t ∈ threads
  · exact threadOk_of_pc (if_pos ht) (iff_of_false nofun nofun) (iff_of_true rfl ht) nofun rfl
  · exact threadOk_of_pc (if_neg ht) (iff_of_false nofun nofun) (iff_of_false nofun ht) nofun rfl

/-! ## The account -/

omit [DecidableEq θ] in
/-- Where a thread is that has a task in hand. -/
theorem pc_of_inHand {f : τ} (h : (s.pc t).inHand = [f]) :
    s.pc t = .take (.unlock (some f)) ∨ s.pc t = .returned (some f) := by
  cases hpc : s.pc t with
  | take p =>
    cases p with
    | unlock task =>
      rw [hpc] at h
      exact .inl (by rw [Option.toList_eq_singleton_iff.mp h])
    | _ => rw [hpc] at h; cases h
  | returned task =>
    rw [hpc] at h
    exact .inr (by rw [Option.toList_eq_singleton_iff.mp h])
  | _ => rw [hpc] at h; cases h

theorem next_execute {f : τ} (ha : s.aborted = false) (h : s.pc t = .returned (some f)) :
    ∃ s', s.step (.next t ∅) = some s' ∧ s'.executed = s.executed ++ [(t, f)] := by
  refine ⟨{ s.goto t (.idle .worker) with executed := s.executed ++ [(t, f)] }, ?_, rfl⟩
  rw [step, if_neg (Bool.eq_false_iff.mp ha), next, h]

/-- **A task in hand is executed** by the next steps of the thread that took it. -/
theorem exists_exec_execute {f : τ} (ha : s.aborted = false) (h : (s.pc t).inHand = [f]) :
    ∃ n s', Runs.exec step s (List.replicate n (.next t ∅)) = some s' ∧
      s'.executed = s.executed ++ [(t, f)] := by
  rcases pc_of_inHand h with hpc | hpc
  · have hunlock : s.step (.next t ∅) = some (s.unlock t (.returned (some f))) := by
      rw [step, if_neg (Bool.eq_false_iff.mp ha), next, hpc]
      rfl
    have hpc' : (s.unlock t (.returned (some f))).pc t = .returned (some f) :=
      Function.update_self _ _ _
    obtain ⟨s', hs', hexecuted⟩ :=
      next_execute (s := s.unlock t (.returned (some f))) ha hpc'
    refine ⟨2, s', ?_, hexecuted⟩
    rw [List.replicate_succ, Runs.exec_cons, hunlock, Option.bind_some, List.replicate_one,
      Runs.exec_cons, hs', Option.bind_some]
    rfl
  · obtain ⟨s', hs', hexecuted⟩ := next_execute ha hpc
    refine ⟨1, s', ?_, hexecuted⟩
    rw [List.replicate_one, Runs.exec_cons, hs', Option.bind_some]
    rfl

theorem Inv.accounts (h : s.Inv maxSize threads) : s.Accounts maxSize threads :=
  ⟨h.shared.bounded, h.shared.asserts, h.shared.order, fun t => (h.thread t).hand,
    fun _ _ hf => exists_exec_execute h.shared.asserts hf,
    ⟨h.shared.takers, h.shared.executers⟩, h.shared.late⟩

/-- **A `ThreadPool` accounts for every task.** For every bound of the queue, any threads of the
pool, at least one, and any others, and every interleaving of their steps in `run`, `take` and
`stop`: the queue keeps its bound, no assertion fails, what was accepted was taken in order or is in
the queue, a task is executed once, by the thread of the pool that took it, and a `run` that starts
after `stop` accepts nothing. -/
theorem accounts_of_exec (hne : threads ≠ []) {as : List (Action θ τ)}
    (h : Runs.exec step (start maxSize threads) as = some s) : s.Accounts maxSize threads :=
  (Runs.exec_induction inv_start (fun _ _ _ h hs => Inv.step hne h hs) h).accounts

/-- The thread makes `n` steps. -/
def steps (n : ℕ) (t : ℕ) : List (Action ℕ ℕ) := List.replicate n (.next t ∅)

/-- With one thread, 0, and a queue of one task: thread 1 fills the queue, thread 2 waits and gives
up when thread 3 stops the pool, and the task is executed. -/
def stopped : List (Action ℕ ℕ) :=
  [.run 1 (some 5)] ++ steps 6 1 ++ [.run 2 (some 6)] ++ steps 4 2 ++ steps 1 0 ++ [.stop 3] ++
    steps 3 3 ++ steps 5 2 ++ steps 5 0

/-- The theorem at work. -/
theorem accounts_of_exec_stopped : ∃ s : TaskPool ℕ ℕ,
    Runs.exec step (start 1 [0]) stopped = some s ∧
      (s.accepted.map Call.task, s.taken, s.executed) =
        ([some 5], [(0, some 5)], [(0, 5)]) ∧ s.Accounts 1 [0] := by
  have hrun : (Runs.exec step (start 1 [0]) stopped).map (fun s : TaskPool ℕ ℕ =>
      (s.accepted.map Call.task, s.taken, s.executed)) =
        some ([some 5], [(0, some 5)], [(0, 5)]) := by
    decide +kernel
  obtain ⟨s, hs, hobs⟩ := Option.map_eq_some_iff.mp hrun
  exact ⟨s, hs, hobs, accounts_of_exec (by decide) hs⟩

end TaskPool

end Muduo
