import Muduo.Foundations.Progress
import Muduo.Foundations.Threads

/-! # `CountDownLatch`

`wait()` and `countDown()` of `muduo/base/CountDownLatch.cc`, called by any number of threads, which
are interleaved wherever one of them locks or unlocks `mutex_`, reads or writes `count_`, begins to
wait, notifies or returns from `cond_.wait()`. `cond_.wait()` unlocks `mutex_` and locks it again
before it returns, which it may do for no reason.

* **`CountDownLatch.wait_returns`**: no `wait()` returns before `countDown()` has been called
  `count` times, and if it is called no more often than that, nobody is inside of it from then on;
* **`CountDownLatch.wait_can_return`**: after `count` calls of `countDown()`, every `wait()` returns
  if the threads go on, without any wakeup that has no reason. -/

namespace Muduo

/-- Where a thread is in the member functions. -/
inductive CountDownLatch.Pc
  | outside
  /-- In `wait()`, where `mutex_` is locked: at its beginning or at the end of `cond_.wait()`. -/
  | waitLock
  /-- At `while (count_>0)`. -/
  | waitTest
  /-- In `cond_.wait()`, with `mutex_` unlocked. -/
  | waiting
  /-- At the end of `wait()`, where `mutex_` is unlocked. -/
  | waitUnlock
  /-- At the beginning of `countDown()`. -/
  | downLock
  /-- At `count_--`. -/
  | downCount
  /-- At `cond_.notifyAll()`. -/
  | downNotify
  /-- At the end of `countDown()`. -/
  | downUnlock
deriving DecidableEq, Repr

/-- `CountDownLatch`, with the threads in its member functions. -/
structure CountDownLatch (θ : Type*) where
  /-- Who has locked `mutex_`. -/
  mutex : Option θ
  /-- `cond_`. -/
  cond : Condition θ
  /-- `count_`. -/
  count : ℤ
  /-- Where each thread is. -/
  pc : θ → CountDownLatch.Pc
  /-- The calls of `countDown()` so far. -/
  calls : ℕ
  /-- The calls of `wait()` that have returned. -/
  returns : ℕ

namespace CountDownLatch

open Function (update)

/-- The thread has locked `mutex_`. -/
def Pc.locked : Pc → Bool
  | waitTest | waitUnlock | downCount | downNotify | downUnlock => true
  | _ => false

/-- The thread is in `wait()`. -/
def Pc.inWait : Pc → Bool
  | waitLock | waitTest | waiting | waitUnlock => true
  | _ => false

/-- The thread is in `cond_.wait()`. -/
def Pc.waits : Pc → Bool
  | waiting => true
  | _ => false

/-- The thread has called `countDown()` and not yet counted. -/
def Pc.owes : Pc → Bool
  | downLock | downCount => true
  | _ => false

/-- The thread is in `countDown()`. -/
def Pc.inCountDown : Pc → Bool
  | downLock | downCount | downNotify | downUnlock => true
  | _ => false

variable {θ : Type*}

/-- `CountDownLatch(count)`. -/
def new (count : ℤ) : CountDownLatch θ := ⟨none, .new, count, fun _ => .outside, 0, 0⟩

variable [DecidableEq θ]

/-- The thread is now at `p`. -/
def setPc (l : CountDownLatch θ) (t : θ) (p : Pc) : CountDownLatch θ :=
  { l with pc := update l.pc t p }

@[simp] theorem setPc_self (l : CountDownLatch θ) (t : θ) (p : Pc) : (l.setPc t p).pc t = p :=
  Function.update_self _ _ _

/-- What can happen. -/
inductive Action (θ : Type*)
  /-- The thread calls `wait()`. -/
  | wait (t : θ)
  /-- The thread calls `countDown()`. -/
  | countDown (t : θ)
  /-- The thread goes on in the function that it has called. -/
  | next (t : θ)
  /-- `cond_.wait()` returns for no reason. -/
  | spurious (t : θ)
deriving DecidableEq

/-- A thread goes on. -/
def next (l : CountDownLatch θ) (t : θ) : Option (CountDownLatch θ) :=
  match l.pc t with
  | .outside => none
  | .waitLock =>
    if l.mutex = none then some ({ l with mutex := some t }.setPc t .waitTest) else none
  | .waitTest =>
    if 0 < l.count then
      some ({ l with mutex := none, cond := l.cond.wait t }.setPc t .waiting)
    else some (l.setPc t .waitUnlock)
  | .waiting =>
    if t ∈ l.cond.notified then some ({ l with cond := l.cond.resume t }.setPc t .waitLock)
    else none
  | .waitUnlock => some ({ l with mutex := none, returns := l.returns + 1 }.setPc t .outside)
  | .downLock =>
    if l.mutex = none then some ({ l with mutex := some t }.setPc t .downCount) else none
  | .downCount =>
    some ({ l with count := l.count - 1 }.setPc t
      (if l.count - 1 = 0 then .downNotify else .downUnlock))
  | .downNotify => some ({ l with cond := l.cond.notifyAll }.setPc t .downUnlock)
  | .downUnlock => some ({ l with mutex := none }.setPc t .outside)

/-- One action. -/
def step (l : CountDownLatch θ) : Action θ → Option (CountDownLatch θ)
  | .wait t => if l.pc t = .outside then some (l.setPc t .waitLock) else none
  | .countDown t =>
    if l.pc t = .outside then some ({ l with calls := l.calls + 1 }.setPc t .downLock) else none
  | .next t => l.next t
  | .spurious t =>
    if l.pc t = .waiting then some ({ l with cond := l.cond.resume t }.setPc t .waitLock) else none

/-! ## The invariant -/

/-- The invariant, for a latch made with `n`. -/
structure Inv (n : ℤ) (l : CountDownLatch θ) : Prop where
  /-- `mutex_` is locked by the thread between lock and unlock. -/
  mutex : Threads.Excludes Pc.locked l.mutex l.pc
  cond : Threads.InWait Pc.waits l.cond l.pc
  /-- Every call of `countDown()` has counted, or will. -/
  count : ∃ k, Threads.Tally Pc.owes k l.pc ∧ l.count + l.calls = n + k
  /-- `wait()` goes to its end if there is nothing left to count. -/
  opened : ∀ t, l.pc t = .waitUnlock → l.count ≤ 0
  returned : 0 < l.returns → l.count ≤ 0
  /-- A thread that has not been notified waits for more, or for the notification. -/
  wake : l.cond.waiting.Nonempty → 0 < l.count ∨ l.count = 0 ∧ ∃ t, l.pc t = .downNotify

variable {n : ℤ} {l l' : CountDownLatch θ} {t u : θ}

omit [DecidableEq θ] in
theorem inv_new : (new n : CountDownLatch θ).Inv n where
  mutex := Threads.excludes_of_forall fun _ => rfl
  cond := Threads.inWait_new fun _ => rfl
  count := ⟨0, Threads.tally_of_forall fun _ => rfl, rfl⟩
  opened := fun _ h => by cases h
  returned := fun h => absurd h (lt_irrefl 0)
  wake := fun ⟨t, ht⟩ => absurd ht (Finset.notMem_empty t)

/-! ## What a step preserves -/

/-- Another thread than `t` is still where it was. -/
theorem exists_update {pc : θ → Pc} {p q : Pc} (ht : pc t ≠ q) (h : ∃ u, pc u = q) :
    ∃ u, update pc t p u = q := by
  obtain ⟨u, hu⟩ := h
  refine ⟨u, ?_⟩
  rw [Function.update_of_ne]
  · exact hu
  · rintro rfl
    exact ht hu

theorem opened_update {pc : θ → Pc} {p : Pc} {k : ℤ} (h : ∀ u, pc u = .waitUnlock → k ≤ 0)
    (hp : p = .waitUnlock → k ≤ 0) (hu : update pc t p u = .waitUnlock) : k ≤ 0 := by
  by_cases hut : u = t
  · subst hut
    rw [Function.update_self] at hu
    exact hp hu
  · rw [Function.update_of_ne hut] at hu
    exact h u hu

/-- A thread moves and neither counts nor begins or ends to wait. -/
theorem Inv.move (h : l.Inv n) {m : Option θ} {p : Pc} {r : ℕ}
    (hm : Threads.Excludes Pc.locked m (update l.pc t p)) (hwaits : p.waits = (l.pc t).waits)
    (howes : p.owes = (l.pc t).owes) (hopened : p = .waitUnlock → l.count ≤ 0)
    (hr : 0 < r → l.count ≤ 0) (hnotify : l.pc t ≠ .downNotify) :
    ({ l with mutex := m, pc := update l.pc t p, returns := r } : CountDownLatch θ).Inv n := by
  obtain ⟨k, hk, hcount⟩ := h.count
  exact
    { mutex := hm
      cond := h.cond.keep hwaits
      count := ⟨k, hk.keep howes, hcount⟩
      opened := fun _ hu => opened_update h.opened hopened hu
      returned := hr
      wake := fun hw => (h.wake hw).imp_right fun hz => ⟨hz.1, exists_update hnotify hz.2⟩ }

/-- A thread calls `countDown()`. -/
theorem Inv.callCountDown (h : l.Inv n) (ht : l.pc t = .outside) :
    ({ l with calls := l.calls + 1 }.setPc t .downLock).Inv n := by
  obtain ⟨k, hk, hcount⟩ := h.count
  exact
    { mutex := h.mutex.keep (by rw [ht]; rfl)
      cond := h.cond.keep (by rw [ht]; rfl)
      count := ⟨k + 1, hk.enter (by rw [ht]; rfl) rfl, by
        show l.count + ((l.calls + 1 : ℕ) : ℤ) = n + ((k + 1 : ℕ) : ℤ)
        push_cast
        omega⟩
      opened := fun _ hu => opened_update h.opened (fun hp => by cases hp) hu
      returned := h.returned
      wake := fun hw =>
        (h.wake hw).imp_right fun hz => ⟨hz.1, exists_update (by rw [ht]; exact Pc.noConfusion) hz.2⟩ }

/-- A thread begins to wait. -/
theorem Inv.beginWait (h : l.Inv n) (ht : l.pc t = .waitTest) (hcount : 0 < l.count) :
    ({ l with mutex := none, cond := l.cond.wait t }.setPc t .waiting).Inv n := by
  obtain ⟨k, hk, heq⟩ := h.count
  exact
    { mutex := h.mutex.unlock (by rw [ht]; rfl) rfl
      cond := h.cond.wait rfl
      count := ⟨k, hk.keep (by rw [ht]; rfl), heq⟩
      opened := fun _ hu => opened_update h.opened (fun hp => by cases hp) hu
      returned := h.returned
      wake := fun _ => .inl hcount }

/-- `cond_.wait()` returns, for some reason or for none. -/
theorem Inv.endWait (h : l.Inv n) (ht : l.pc t = .waiting) :
    ({ l with cond := l.cond.resume t }.setPc t .waitLock).Inv n := by
  obtain ⟨k, hk, heq⟩ := h.count
  exact
    { mutex := h.mutex.keep (by rw [ht]; rfl)
      cond := h.cond.resume rfl
      count := ⟨k, hk.keep (by rw [ht]; rfl), heq⟩
      opened := fun _ hu => opened_update h.opened (fun hp => by cases hp) hu
      returned := h.returned
      wake := fun hw => (h.wake (hw.mono (Finset.erase_subset t _))).imp_right fun hz =>
        ⟨hz.1, exists_update (by rw [ht]; exact Pc.noConfusion) hz.2⟩ }

/-- `count_--`: the last one goes on to notify. -/
theorem Inv.countOne (h : l.Inv n) (ht : l.pc t = .downCount) :
    ({ l with count := l.count - 1 }.setPc t
      (if l.count - 1 = 0 then .downNotify else .downUnlock)).Inv n := by
  obtain ⟨k, hk, heq⟩ := h.count
  have hpos : 0 < k := hk.pos (t := t) (by rw [ht]; rfl)
  have hlocked : (if l.count - 1 = 0 then Pc.downNotify else .downUnlock).locked = true := by
    split_ifs <;> rfl
  have hwaits : (if l.count - 1 = 0 then Pc.downNotify else .downUnlock).waits = false := by
    split_ifs <;> rfl
  have howes : (if l.count - 1 = 0 then Pc.downNotify else .downUnlock).owes = false := by
    split_ifs <;> rfl
  -- `t` is the one that has locked the mutex, so nobody else is about to notify
  have hnotify : ∀ u, l.pc u ≠ .downNotify := by
    intro u hu
    obtain rfl : u = t := h.mutex.unique (by rw [ht]; rfl) (by rw [hu]; rfl)
    cases ht.symm.trans hu
  exact
    { mutex := h.mutex.keep (by rw [hlocked, ht]; rfl)
      cond := h.cond.keep (by rw [hwaits, ht]; rfl)
      count := ⟨k - 1, hk.leave (by rw [ht]; rfl) howes, by
        show l.count - 1 + (l.calls : ℤ) = n + ((k - 1 : ℕ) : ℤ)
        omega⟩
      opened := fun u hu => by
        have hle := opened_update h.opened (fun hp => by split_ifs at hp) hu
        show l.count - 1 ≤ 0
        omega
      returned := fun hr => by
        have hle := h.returned hr
        show l.count - 1 ≤ 0
        omega
      wake := fun hw => by
        have hlt : 0 < l.count := (h.wake hw).resolve_right fun hz => hnotify _ hz.2.choose_spec
        show 0 < l.count - 1 ∨ l.count - 1 = 0 ∧ _
        by_cases hz : l.count - 1 = 0
        · refine .inr ⟨hz, t, ?_⟩
          show update l.pc t _ t = _
          rw [Function.update_self, if_pos hz]
        · exact .inl (by omega) }

/-- `cond_.notifyAll()`: nobody is left. -/
theorem Inv.notify (h : l.Inv n) (ht : l.pc t = .downNotify) :
    ({ l with cond := l.cond.notifyAll }.setPc t .downUnlock).Inv n := by
  obtain ⟨k, hk, heq⟩ := h.count
  exact
    { mutex := h.mutex.keep (by rw [ht]; rfl)
      cond := h.cond.notifyAll (by rw [ht]; rfl)
      count := ⟨k, hk.keep (by rw [ht]; rfl), heq⟩
      opened := fun _ hu => opened_update h.opened (fun hp => by cases hp) hu
      returned := h.returned
      wake := fun hw => by
        have hempty : l.cond.notifyAll.waiting.Nonempty := hw
        rw [Condition.waiting_notifyAll] at hempty
        exact absurd hempty Finset.not_nonempty_empty }

theorem Inv.of_next (h : l.Inv n) (hs : l.next t = some l') : l'.Inv n := by
  cases hpc : l.pc t <;> rw [next, hpc] at hs
  case outside => cases hs
  case waitLock =>
    obtain ⟨hm, hs⟩ := Option.ite_none_right_eq_some.mp hs
    cases hs
    exact h.move (.lock (hm ▸ h.mutex) rfl) (by rw [hpc]; rfl) (by rw [hpc]; rfl)
      (fun hp => by cases hp) h.returned (by rw [hpc]; exact Pc.noConfusion)
  case waitTest =>
    dsimp only at hs
    split_ifs at hs with hcount
    · cases hs
      exact h.beginWait hpc hcount
    · cases hs
      exact h.move (h.mutex.keep (by rw [hpc]; rfl)) (by rw [hpc]; rfl) (by rw [hpc]; rfl)
        (fun _ => not_lt.mp hcount) h.returned (by rw [hpc]; exact Pc.noConfusion)
  case waiting =>
    obtain ⟨-, hs⟩ := Option.ite_none_right_eq_some.mp hs
    cases hs
    exact h.endWait hpc
  case waitUnlock =>
    cases hs
    exact h.move (h.mutex.unlock (by rw [hpc]; rfl) rfl) (by rw [hpc]; rfl) (by rw [hpc]; rfl)
      (fun hp => by cases hp) (fun _ => h.opened t hpc) (by rw [hpc]; exact Pc.noConfusion)
  case downLock =>
    obtain ⟨hm, hs⟩ := Option.ite_none_right_eq_some.mp hs
    cases hs
    exact h.move (.lock (hm ▸ h.mutex) rfl) (by rw [hpc]; rfl) (by rw [hpc]; rfl)
      (fun hp => by cases hp) h.returned (by rw [hpc]; exact Pc.noConfusion)
  case downCount =>
    cases hs
    exact h.countOne hpc
  case downNotify =>
    cases hs
    exact h.notify hpc
  case downUnlock =>
    cases hs
    exact h.move (h.mutex.unlock (by rw [hpc]; rfl) rfl) (by rw [hpc]; rfl) (by rw [hpc]; rfl)
      (fun hp => by cases hp) h.returned (by rw [hpc]; exact Pc.noConfusion)

theorem Inv.of_step {a : Action θ} (h : l.Inv n) (hs : l.step a = some l') : l'.Inv n := by
  cases a with
  | wait t =>
    obtain ⟨hpc, hs⟩ := Option.ite_none_right_eq_some.mp hs
    cases hs
    exact h.move (h.mutex.keep (by rw [hpc]; rfl)) (by rw [hpc]; rfl) (by rw [hpc]; rfl)
      (fun hp => by cases hp) h.returned (by rw [hpc]; exact Pc.noConfusion)
  | countDown t =>
    obtain ⟨hpc, hs⟩ := Option.ite_none_right_eq_some.mp hs
    cases hs
    exact h.callCountDown hpc
  | next t => exact h.of_next hs
  | spurious t =>
    obtain ⟨hpc, hs⟩ := Option.ite_none_right_eq_some.mp hs
    cases hs
    exact h.endWait hpc

/-- The invariant of all runs. -/
theorem inv_of_exec {as : List (Action θ)} (h : Runs.exec step (new n) as = some l) : l.Inv n :=
  Runs.exec_induction inv_new (fun _ _ _ ht hs => Inv.of_step ht hs) h

/-! ## One thread among the others -/

/-- The places that follow one another in the two functions. -/
def Pc.follows : Pc → Pc → Bool
  | waitLock, waitTest => true
  | waitTest, waiting => true
  | waitTest, waitUnlock => true
  | waiting, waitLock => true
  | waitUnlock, outside => true
  | downLock, downCount => true
  | downCount, downNotify => true
  | downCount, downUnlock => true
  | downNotify, downUnlock => true
  | downUnlock, outside => true
  | _, _ => false

/-- A thread in `wait()` stays there or returns. -/
theorem Pc.inWait_of_follows {p q : Pc} (h : p.follows q = true) (hp : p.inWait = true) :
    q = outside ∨ q.inWait = true := by
  revert h hp
  cases p <;> cases q <;> decide

/-- A thread comes into `countDown()` by calling it. -/
theorem Pc.inCountDown_of_follows {p q : Pc} (h : p.follows q = true) (hq : q.inCountDown = true) :
    p.inCountDown = true := by
  revert h hq
  cases p <;> cases q <;> decide

/-- A thread in `countDown()` stays there or returns. -/
theorem Pc.stays_of_follows {p q : Pc} (h : p.follows q = true) (hp : p.inCountDown = true) :
    q = outside ∨ q.inCountDown = true := by
  revert h hp
  cases p <;> cases q <;> decide

/-- A thread leaves `wait()` at its end. -/
theorem Pc.eq_waitUnlock {p : Pc} (h : p.follows outside = true) (hp : p.inWait = true) :
    p = waitUnlock := by
  revert h hp
  cases p <;> decide

/-- What a thread that goes on does to the places and to what has been called and has returned. -/
theorem next_pc (hs : l.next t = some l') :
    ∃ p, l'.pc = update l.pc t p ∧ (l.pc t).follows p = true ∧ l'.calls = l.calls ∧
      l'.returns = if l.pc t = .waitUnlock then l.returns + 1 else l.returns := by
  cases hpc : l.pc t <;> rw [next, hpc] at hs
  case outside => cases hs
  case waitUnlock =>
    cases hs
    exact ⟨_, rfl, rfl, rfl, rfl⟩
  case waitLock | waiting | downLock =>
    obtain ⟨-, hs⟩ := Option.ite_none_right_eq_some.mp hs
    cases hs
    exact ⟨_, rfl, rfl, rfl, rfl⟩
  case waitTest =>
    dsimp only at hs
    split_ifs at hs <;> cases hs <;> exact ⟨_, rfl, rfl, rfl, rfl⟩
  case downCount =>
    cases hs
    refine ⟨_, rfl, ?_, rfl, rfl⟩
    split_ifs <;> rfl
  case downNotify | downUnlock =>
    cases hs
    exact ⟨_, rfl, rfl, rfl, rfl⟩

/-- A thread that goes on leaves the other ones where they are. -/
theorem pc_of_next (hs : l.next t = some l') (hu : u ≠ t) : l'.pc u = l.pc u := by
  obtain ⟨p, hp, -⟩ := next_pc hs
  rw [hp, Function.update_of_ne hu]

theorem follows_of_next (hs : l.next t = some l') : (l.pc t).follows (l'.pc t) = true := by
  obtain ⟨p, hp, hfollows, -⟩ := next_pc hs
  rw [hp, Function.update_self]
  exact hfollows

/-- Going on calls nothing. -/
theorem calls_of_next (hs : l.next t = some l') : l'.calls = l.calls := by
  obtain ⟨p, -, -, hcalls, -⟩ := next_pc hs
  exact hcalls

/-- Only the end of `wait()` is noted as a return. -/
theorem returns_of_next (hs : l.next t = some l') :
    l'.returns = if l.pc t = .waitUnlock then l.returns + 1 else l.returns := by
  obtain ⟨p, -, -, -, hreturns⟩ := next_pc hs
  exact hreturns

theorem inCountDown_of_next (hs : l.next t = some l') (hu : (l'.pc u).inCountDown = true) :
    (l.pc u).inCountDown = true := by
  by_cases hut : u = t
  · subst hut
    exact Pc.inCountDown_of_follows (follows_of_next hs) hu
  · rwa [← pc_of_next hs hut]

/-- A thread that moves to a place outside of `countDown()`. -/
theorem inCountDown_update {pc : θ → Pc} {p : Pc} (hp : p.inCountDown = false)
    (h : (pc u).inCountDown = false) : (update pc t p u).inCountDown = false := by
  by_cases hut : u = t
  · subst hut
    rwa [Function.update_self]
  · rwa [Function.update_of_ne hut]

/-- The thread that acts. -/
def Action.thread : Action θ → θ
  | wait t | countDown t | next t | spurious t => t

/-- An action leaves the other threads where they are. -/
theorem pc_of_step {a : Action θ} (hs : l.step a = some l') (hu : u ≠ a.thread) :
    l'.pc u = l.pc u := by
  cases a with
  | next t => exact pc_of_next hs hu
  | wait t | countDown t | spurious t =>
    obtain ⟨-, hs⟩ := Option.ite_none_right_eq_some.mp hs
    cases hs
    exact Function.update_of_ne hu _ _

/-! ## When `wait()` returns -/

omit [DecidableEq θ] in
/-- Where nothing is left to count, `countDown()` has been called often enough. -/
theorem Inv.le_calls (h : l.Inv n) (hcount : l.count ≤ 0) : n ≤ l.calls := by
  obtain ⟨k, -, heq⟩ := h.count
  omega

/-- From the first return of `wait()` on, nobody is in `countDown()`, unless it is called more often
than the latch counts. -/
def Quiet (n : ℤ) (l : CountDownLatch θ) : Prop :=
  0 < l.returns → (l.calls : ℤ) ≤ n → ∀ t, (l.pc t).inCountDown = false

omit [DecidableEq θ] in
/-- At the end of `wait()` nobody else is between lock and unlock, and everybody has counted. -/
theorem Inv.quiet_of_waitUnlock (h : l.Inv n) (ht : l.pc t = .waitUnlock)
    (hcalls : (l.calls : ℤ) ≤ n) (u : θ) : (l.pc u).inCountDown = false := by
  obtain ⟨k, hk, heq⟩ := h.count
  have hopened := h.opened t ht
  obtain rfl : k = 0 := by omega
  have howes := hk.forall_of_zero u
  have hlocked : (l.pc u).locked = true → l.pc u = .waitUnlock := by
    intro hu
    rw [h.mutex.unique (t := t) (by rw [ht]; rfl) hu]
    exact ht
  cases hpc : l.pc u <;> rw [hpc] at howes hlocked
  case downLock | downCount => cases howes
  case downNotify | downUnlock => cases hlocked rfl
  all_goals rfl

theorem Quiet.of_step {a : Action θ} (hq : l.Quiet n) (h : l.Inv n) (hs : l.step a = some l') :
    l'.Quiet n := by
  intro hr hcalls u
  cases a with
  | wait t =>
    obtain ⟨hpc, hs⟩ := Option.ite_none_right_eq_some.mp hs
    cases hs
    exact inCountDown_update rfl (hq hr hcalls u)
  | countDown t =>
    -- the latch has counted its calls, so there is no further one
    obtain ⟨-, hs⟩ := Option.ite_none_right_eq_some.mp hs
    cases hs
    have hle : n ≤ l.calls := h.le_calls (h.returned hr)
    have hlt : (l.calls : ℤ) + 1 ≤ n := by exact_mod_cast hcalls
    omega
  | next t =>
    rw [calls_of_next hs] at hcalls
    by_contra hu
    rw [Bool.not_eq_false] at hu
    have hin := inCountDown_of_next hs hu
    rw [returns_of_next hs] at hr
    split_ifs at hr with ht
    · rw [h.quiet_of_waitUnlock ht hcalls u] at hin
      exact Bool.false_ne_true hin
    · rw [hq hr hcalls u] at hin
      exact Bool.false_ne_true hin
  | spurious t =>
    obtain ⟨hpc, hs⟩ := Option.ite_none_right_eq_some.mp hs
    cases hs
    exact inCountDown_update rfl (hq hr hcalls u)

/-- What is known of a latch from the first return of `wait()` on. -/
theorem quiet_of_exec {as : List (Action θ)} (h : Runs.exec step (new n) as = some l) :
    l.Inv n ∧ l.Quiet n :=
  Runs.exec_induction (I := fun l => l.Inv n ∧ l.Quiet n) ⟨inv_new, fun hr => absurd hr (lt_irrefl 0)⟩
    (fun _ _ _ ht hs => ⟨ht.1.of_step hs, ht.2.of_step ht.1 hs⟩) h

/-- **When `wait()` returns.** Whatever the threads do and however they are interleaved: no `wait()`
returns before `countDown()` has been called `n` times. If it is called no more often than that,
nobody is inside of `countDown()` from the first return on, so that a thread that knows of no other
one in `wait()` may destroy the latch. -/
theorem wait_returns {as : List (Action θ)} (h : Runs.exec step (new n) as = some l)
    (hr : 0 < l.returns) :
    n ≤ l.calls ∧ ((l.calls : ℤ) ≤ n → ∀ t, (l.pc t).inCountDown = false) := by
  obtain ⟨hinv, hquiet⟩ := quiet_of_exec h
  exact ⟨hinv.le_calls (hinv.returned hr), hquiet hr⟩

/-- Thread 0 waits, thread 1 counts down and notifies it. -/
def handOver : List (Action ℕ) :=
  [.wait 0, .next 0, .next 0, .countDown 1, .next 1, .next 1, .next 1, .next 1, .next 0, .next 0,
    .next 0, .next 0]

/-- The theorem at work: a thread has waited for another one, which has left the latch. -/
theorem wait_returns_handOver : ∃ l : CountDownLatch ℕ,
    Runs.exec step (new 1) handOver = some l ∧ l.returns = 1 ∧
      ∀ t, (l.pc t).inCountDown = false := by
  have hrun : (Runs.exec step (new 1) handOver).map (fun l => (l.returns, l.calls)) =
      some (1, 1) := by
    decide +kernel
  obtain ⟨l, hl, heq⟩ := Option.map_eq_some_iff.mp hrun
  obtain ⟨hr, hcalls⟩ := Prod.mk.inj heq
  have hquiet := (wait_returns hl (by omega)).2 (by omega)
  exact ⟨l, hl, hr, hquiet⟩

/-! ## Every `wait()` can return -/

/-- The steps that the thread which has locked `mutex_` has left with it. -/
def Pc.rank : Pc → ℕ
  | waitTest | downNotify => 3
  | waitUnlock | downUnlock => 2
  | _ => 0

/-- What is left to do before everybody has counted and nobody is between lock and unlock. -/
def work (n : ℤ) (l : CountDownLatch θ) : ℕ :=
  4 * (l.count + l.calls - n).toNat + (l.mutex.map fun t => (l.pc t).rank).getD 1

/-- The action lets a thread go on, for a reason. -/
def Action.IsNext (a : Action θ) : Prop := ∃ t, a = .next t

omit [DecidableEq θ] in
theorem work_of_mutex (h : l.mutex = some t) :
    l.work n = 4 * (l.count + l.calls - n).toNat + (l.pc t).rank := by
  rw [work, h]
  rfl

omit [DecidableEq θ] in
theorem work_of_free (h : l.mutex = none) :
    l.work n = 4 * (l.count + l.calls - n).toNat + 1 := by
  rw [work, h]
  rfl

theorem work_setPc {p : Pc} (h : l.mutex = some t) :
    (l.setPc t p).work n = 4 * (l.count + l.calls - n).toNat + p.rank := by
  have hm : (l.setPc t p).mutex = some t := h
  rw [work_of_mutex hm, setPc_self]
  rfl

/-- **The thread that has locked `mutex_` can go on.** -/
theorem Inv.next_of_locked (h : l.Inv n) (ht : l.mutex = some t) :
    ∃ l', l.next t = some l' ∧ l'.work n < l.work n := by
  obtain ⟨k, hk, heq⟩ := h.count
  have hlocked : (l.pc t).locked = true := (h.mutex t).mpr ht
  rw [work_of_mutex ht]
  cases hpc : l.pc t <;> rw [hpc] at hlocked
  case waitTest =>
    by_cases hcount : 0 < l.count
    · refine ⟨_, by rw [next, hpc]; exact if_pos hcount, ?_⟩
      rw [work_of_free rfl]
      exact Nat.add_lt_add_left (by decide) _
    · refine ⟨_, by rw [next, hpc]; exact if_neg hcount, ?_⟩
      rw [work_setPc ht]
      exact Nat.add_lt_add_left (by decide) _
  case waitUnlock | downUnlock =>
    refine ⟨_, by rw [next, hpc], ?_⟩
    rw [work_of_free rfl]
    exact Nat.add_lt_add_left (by decide) _
  case downNotify =>
    refine ⟨_, by rw [next, hpc], ?_⟩
    rw [work_setPc]
    · exact Nat.add_lt_add_left (by decide) _
    · exact ht
  case downCount =>
    -- one call less has still to count
    have hpos : 0 < k := hk.pos (t := t) (by rw [hpc]; rfl)
    have hrank : (if l.count - 1 = 0 then Pc.downNotify else .downUnlock).rank ≤ 3 := by
      split_ifs <;> decide
    refine ⟨_, by rw [next, hpc], ?_⟩
    rw [work_setPc]
    · dsimp only
      omega
    · exact ht
  all_goals cases hlocked

/-- A thread that has still to count can lock a free mutex. -/
theorem next_of_owes (hm : l.mutex = none) (hu : l.pc u = .downLock) :
    ∃ l', l.next u = some l' ∧ l'.work n < l.work n := by
  refine ⟨_, by rw [next, hu]; exact if_pos hm, ?_⟩
  rw [work_of_free hm, work_setPc rfl]
  exact Nat.add_lt_add_left (by decide) _

/-- In a latch made with `n`, the thread is in `wait()` or has returned, and `countDown()` has been
called often enough. -/
structure Waiter (n : ℤ) (t : θ) (l : CountDownLatch θ) : Prop where
  inv : l.Inv n
  calls : n ≤ l.calls
  place : l.pc t = .outside ∨ (l.pc t).inWait = true

theorem Waiter.of_next (h : l.Waiter n t) (hs : l.next u = some l') : l'.Waiter n t where
  inv := h.inv.of_next hs
  calls := by
    rw [calls_of_next hs]
    exact h.calls
  place := by
    by_cases htu : t = u
    · subst htu
      rcases h.place with ht | ht
      · rw [next, ht] at hs
        cases hs
      · exact Pc.inWait_of_follows (follows_of_next hs) ht
    · rw [pc_of_next hs htu]
      exact h.place

/-- **First everybody counts**, and the mutex becomes free. -/
theorem Waiter.can_count (h : l.Waiter n t) :
    Runs.Can step Action.IsNext (fun l => l.Waiter n t ∧
      (l.pc t = .outside ∨ l.mutex = none ∧ l.count + l.calls = n)) l := by
  refine Runs.can_of_measure (I := Waiter n t) (work n) (fun l h hP => ?_) h
  have hfree : ¬(l.mutex = none ∧ l.count + l.calls = n) := fun hm => hP ⟨h, .inr hm⟩
  obtain ⟨u, l', hs, hlt⟩ : ∃ u l', l.next u = some l' ∧ l'.work n < l.work n := by
    cases hm : l.mutex with
    | some u => exact ⟨u, h.inv.next_of_locked hm⟩
    | none =>
      obtain ⟨k, hk, heq⟩ := h.inv.count
      have hpos : 0 < k := by
        rcases Nat.eq_zero_or_pos k with rfl | hpos
        · exact absurd ⟨hm, by simpa using heq⟩ hfree
        · exact hpos
      obtain ⟨u, hu⟩ := hk.exists_of_pos hpos
      have hlocked : (l.pc u).locked = false := (hm ▸ h.inv.mutex).outside u
      have hdown : l.pc u = .downLock := by
        cases hpc : l.pc u <;> rw [hpc] at hu hlocked
        case downCount => cases hlocked
        all_goals cases hu
      exact ⟨u, next_of_owes hm hdown⟩
  exact ⟨.next u, l', ⟨u, rfl⟩, hs, h.of_next hs, hlt⟩

/-- A thread at the end of `wait()` returns. -/
theorem can_return_of_waitUnlock (ht : l.pc t = .waitUnlock) :
    Runs.Can step Action.IsNext (fun l => l.pc t = .outside) l :=
  Runs.can_of_step ⟨t, rfl⟩ (by rw [step, next, ht]) (setPc_self _ _ _)

/-- A thread that can lock the mutex returns if there is nothing left to count. -/
theorem can_return_of_waitLock (ht : l.pc t = .waitLock) (hm : l.mutex = none)
    (hcount : l.count ≤ 0) : Runs.Can step Action.IsNext (fun l => l.pc t = .outside) l := by
  refine .cons (t := { l with mutex := some t }.setPc t .waitTest) ⟨t, rfl⟩
    (by rw [step, next, ht]; exact if_pos hm) ?_
  refine .cons (t := ({ l with mutex := some t }.setPc t .waitTest).setPc t .waitUnlock) ⟨t, rfl⟩ ?_
    (can_return_of_waitUnlock (setPc_self _ _ _))
  have hpc : ({ l with mutex := some t }.setPc t .waitTest).pc t = .waitTest :=
    Function.update_self _ _ _
  rw [step, next, hpc]
  exact if_neg (not_lt.mpr hcount)

/-- **Then the thread returns.** Nobody is about to notify, so it has been notified. -/
theorem Waiter.can_return (h : l.Waiter n t)
    (hP : l.pc t = .outside ∨ l.mutex = none ∧ l.count + l.calls = n) :
    Runs.Can step Action.IsNext (fun l => l.pc t = .outside) l := by
  rcases hP with ht | ⟨hm, heq⟩
  · exact Runs.can_of_now ht
  have hcount : l.count ≤ 0 := by
    have := h.calls
    omega
  have hlocked : (l.pc t).locked = false := (hm ▸ h.inv.mutex).outside t
  rcases h.place with ht | ht
  · exact Runs.can_of_now ht
  cases hpc : l.pc t <;> rw [hpc] at ht hlocked
  case waitLock => exact can_return_of_waitLock hpc hm hcount
  case waiting =>
    have hnone : l.cond.waiting = ∅ := by
      by_contra hne
      rcases h.inv.wake (Finset.nonempty_iff_ne_empty.mpr hne) with hlt | ⟨-, u, hu⟩
      · omega
      · have hu' := (hm ▸ h.inv.mutex).outside u
        rw [hu] at hu'
        cases hu'
    have hnotified : t ∈ l.cond.notified :=
      Condition.Has.mem_notified ((h.inv.cond t).mpr (by rw [hpc]; rfl)) hnone
    refine .cons ⟨t, rfl⟩ (by rw [step, next, hpc]; exact if_pos hnotified) ?_
    exact can_return_of_waitLock (setPc_self _ _ _) hm hcount
  case waitTest | waitUnlock => cases hlocked
  all_goals cases ht

/-- A thread in `wait()` can return once `countDown()` has been called often enough. -/
theorem Waiter.can (h : l.Waiter n t) : Runs.Can step Action.IsNext (fun l => l.pc t = .outside) l :=
  h.can_count.bind fun _ hl => hl.1.can_return hl.2

/-- **No deadlock and no lost wakeup.** Wherever the threads are in a latch made with `n`, once
`countDown()` has been called `n` times every thread in `wait()` can return: the threads need only go
on, and none has to be woken up without a reason. -/
theorem wait_can_return {as : List (Action θ)} (h : Runs.exec step (new n) as = some l)
    (hcalls : n ≤ l.calls) (ht : (l.pc t).inWait = true) :
    Runs.Can step Action.IsNext (fun l => l.pc t = .outside) l := by
  have hw : l.Waiter n t := ⟨inv_of_exec h, hcalls, .inr ht⟩
  exact hw.can

/-- The theorem at work: a thread waits, and the other one has just called `countDown()`. -/
theorem wait_can_return_waiting : ∃ l : CountDownLatch ℕ,
    Runs.exec step (new 1) [.wait 0, .next 0, .next 0, .countDown 1] = some l ∧
      l.pc 0 = .waiting ∧ Runs.Can step Action.IsNext (fun l => l.pc 0 = .outside) l := by
  have hrun : (Runs.exec step (new 1) [.wait 0, .next 0, .next 0, .countDown 1]).map
      (fun l : CountDownLatch ℕ => (l.calls, l.pc 0)) = some (1, .waiting) := by
    decide +kernel
  obtain ⟨l, hl, heq⟩ := Option.map_eq_some_iff.mp hrun
  obtain ⟨hcalls, hpc⟩ := Prod.mk.inj heq
  exact ⟨l, hl, hpc, wait_can_return hl (by omega) (by rw [hpc]; rfl)⟩

end CountDownLatch

end Muduo
