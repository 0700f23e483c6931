import Muduo.Foundations.Progress
import Muduo.Foundations.Threads

/-! # `MutexLock` and `Condition`

`muduo/base/Mutex.h` and `Condition.cc`. A `MutexLock` is a `pthread_mutex_t` and `holder_`, which is
written after the lock is taken and before it is given up, in `lock()` and `unlock()` and around
`pthread_cond_wait`. Any thread may ask `isLockedByThisThread()` at any time, without the lock.

* **`MutexLock.holder_exact`**: `holder_` always names the thread that has the lock and has come out
  of the function that took it, so that every assertion about it passes when it should and fails when
  it should;
* **`MutexLock.can_hold`**: who waits for the lock gets it, if the threads go on and the holder
  unlocks. -/

namespace Muduo

/-- Where a thread is. -/
inductive MutexLock.Pc
  /-- In no function, without the lock. -/
  | outside
  /-- At `pthread_mutex_lock` in `lock()`. -/
  | locking
  /-- At `assignHolder()` in `lock()`. -/
  | assigning
  /-- In no function, with the lock. -/
  | holding
  /-- At `pthread_mutex_unlock` in `unlock()`. -/
  | unlocking
  /-- In `Condition::wait()`, before `pthread_cond_wait`. -/
  | beginWait
  /-- In `pthread_cond_wait`, with the lock given up. -/
  | waiting
  /-- In `pthread_cond_wait`, which takes the lock again. -/
  | relocking
  /-- In `Condition::wait()`, after `pthread_cond_wait`. -/
  | endWait
deriving DecidableEq, Repr

/-- A `MutexLock` and a `Condition` that uses it. The ids of the threads are positive, and 0 is
`none`. -/
structure MutexLock (θ : Type*) where
  /-- Who has locked `mutex_`. -/
  mutex : Option θ
  /-- `holder_`. -/
  holder : Option θ
  /-- `cond_` of the `Condition`. -/
  cond : Condition θ
  pc : θ → MutexLock.Pc

namespace MutexLock

open Function (update)

/-- The thread has locked `mutex_`. -/
def Pc.locked : Pc → Bool
  | assigning | holding | unlocking | beginWait | endWait => true
  | _ => false

/-- The thread has the lock, and is in no function. -/
def Pc.holds : Pc → Bool
  | holding => true
  | _ => false

/-- The thread is in `pthread_cond_wait`, and has not been woken up. -/
def Pc.waits : Pc → Bool
  | waiting => true
  | _ => false

variable {θ : Type*}

/-- `MutexLock()`. -/
def new : MutexLock θ := ⟨none, none, .new, fun _ => .outside⟩

variable [DecidableEq θ]

/-- `isLockedByThisThread()`, called by `t`. -/
def isLockedByThisThread (s : MutexLock θ) (t : θ) : Bool := s.holder == some t

/-- `assertLocked()`, called by `t`: whether both assertions pass. -/
def assertLocked (s : MutexLock θ) (t : θ) : Bool := s.holder != none && s.isLockedByThisThread t

/-- The assertion of `~MutexLock`. -/
def mayDestroy (s : MutexLock θ) : Bool := s.holder == none

/-- The thread is now at `p`. -/
def setPc (s : MutexLock θ) (t : θ) (p : Pc) : MutexLock θ := { s with pc := update s.pc t p }

/-- What can happen. -/
inductive Action (θ : Type*)
  /-- The thread calls `lock()`. -/
  | lock (t : θ)
  /-- The thread calls `unlock()`. -/
  | unlock (t : θ)
  /-- The thread calls `wait()` or `waitForSeconds()`. -/
  | wait (t : θ)
  /-- Some thread calls `notify()`, which wakes the threads `woken`. -/
  | notify (woken : Finset θ)
  | notifyAll
  /-- The thread goes on in the function that it has called. -/
  | next (t : θ)
  /-- `pthread_cond_wait` returns for no reason, or `pthread_cond_timedwait` at the deadline. -/
  | giveUp (t : θ)

/-- A thread goes on. -/
def next (s : MutexLock θ) (t : θ) : Option (MutexLock θ) :=
  match s.pc t with
  | .outside | .holding => none
  | .locking =>
    if s.mutex = none then some ({ s with mutex := some t }.setPc t .assigning) else none
  | .assigning => some ({ s with holder := some t }.setPc t .holding)
  -- what becomes of a mutex that another thread has locked is undefined
  | .unlocking => if s.mutex = some t then some ({ s with mutex := none }.setPc t .outside) else none
  | .beginWait => some ({ s with mutex := none, cond := s.cond.wait t }.setPc t .waiting)
  | .waiting =>
    if t ∈ s.cond.notified then some ({ s with cond := s.cond.resume t }.setPc t .relocking) else none
  | .relocking =>
    if s.mutex = none then some ({ s with mutex := some t }.setPc t .endWait) else none
  | .endWait => some ({ s with holder := some t }.setPc t .holding)

/-- One action. An assertion that fails ends the run. -/
def step (s : MutexLock θ) : Action θ → Option (MutexLock θ)
  | .lock t => if s.pc t = .outside then some (s.setPc t .locking) else none
  | .unlock t =>
    if s.pc t = .outside ∨ s.pc t = .holding then
      some ({ s with holder := none }.setPc t .unlocking)
    else none
  | .wait t =>
    if s.pc t = .outside ∨ s.pc t = .holding then
      if s.isLockedByThisThread t then some ({ s with holder := none }.setPc t .beginWait) else none
    else none
  | .notify woken => (s.cond.notify woken).map fun c => { s with cond := c }
  | .notifyAll => some { s with cond := s.cond.notifyAll }
  | .next t => s.next t
  | .giveUp t =>
    if s.pc t = .waiting then some ({ s with cond := s.cond.resume t }.setPc t .relocking) else none

/-- Only a thread that has the lock calls `unlock()`. -/
def Owned (s : MutexLock θ) : Action θ → Prop
  | .unlock t => s.pc t = .holding
  | _ => True

instance (s : MutexLock θ) : ∀ a, Decidable (s.Owned a)
  | .unlock t => inferInstanceAs (Decidable (s.pc t = .holding))
  | .lock _ | .wait _ | .notify _ | .notifyAll | .next _ | .giveUp _ =>
    inferInstanceAs (Decidable True)

/-! ## The invariant -/

/-- The invariant. -/
structure Inv (s : MutexLock θ) : Prop where
  mutex : Threads.Excludes Pc.locked s.mutex s.pc
  holder : Threads.Excludes Pc.holds s.holder s.pc
  cond : Threads.InWait Pc.waits s.cond s.pc

variable {s s' : MutexLock θ} {t u : θ}

omit [DecidableEq θ] in
theorem inv_new : (new : MutexLock θ).Inv where
  mutex := Threads.excludes_of_forall fun _ => rfl
  holder := Threads.excludes_of_forall fun _ => rfl
  cond := Threads.inWait_new fun _ => rfl

omit [DecidableEq θ] in
/-- Nobody holds the lock while another thread has it and is in a function. -/
theorem Inv.holder_none (h : s.Inv) (ht : (s.pc t).locked = true) (hnot : (s.pc t).holds = false) :
    s.holder = none := by
  cases hu : s.holder with
  | none => rfl
  | some u =>
    have hholds : (s.pc u).holds = true := (h.holder u).mpr hu
    have hlocked : (s.pc u).locked = true := by
      cases hpc : s.pc u <;> rw [hpc] at hholds <;> first | rfl | cases hholds
    obtain rfl : u = t := h.mutex.unique ht hlocked
    cases hnot.symm.trans hholds

theorem Inv.of_next (h : s.Inv) (hs : s.next t = some s') : s'.Inv := by
  cases hpc : s.pc t <;> rw [next, hpc] at hs
  case outside => cases hs
  case holding => cases hs
  case locking =>
    obtain ⟨hm, hs⟩ := Option.ite_none_right_eq_some.mp hs
    cases hs
    exact ⟨.lock (hm ▸ h.mutex) rfl, h.holder.keep (by rw [hpc]; rfl), h.cond.keep (by rw [hpc]; rfl)⟩
  case assigning =>
    cases hs
    have hnone := h.holder_none (t := t) (by rw [hpc]; rfl) (by rw [hpc]; rfl)
    exact ⟨h.mutex.keep (by rw [hpc]; rfl), .lock (hnone ▸ h.holder) rfl,
      h.cond.keep (by rw [hpc]; rfl)⟩
  case unlocking =>
    obtain ⟨-, hs⟩ := Option.ite_none_right_eq_some.mp hs
    cases hs
    exact ⟨h.mutex.unlock (by rw [hpc]; rfl) rfl, h.holder.keep (by rw [hpc]; rfl),
      h.cond.keep (by rw [hpc]; rfl)⟩
  case beginWait =>
    cases hs
    exact ⟨h.mutex.unlock (by rw [hpc]; rfl) rfl, h.holder.keep (by rw [hpc]; rfl), h.cond.wait rfl⟩
  case waiting =>
    obtain ⟨-, hs⟩ := Option.ite_none_right_eq_some.mp hs
    cases hs
    exact ⟨h.mutex.keep (by rw [hpc]; rfl), h.holder.keep (by rw [hpc]; rfl), h.cond.resume rfl⟩
  case relocking =>
    obtain ⟨hm, hs⟩ := Option.ite_none_right_eq_some.mp hs
    cases hs
    exact ⟨.lock (hm ▸ h.mutex) rfl, h.holder.keep (by rw [hpc]; rfl), h.cond.keep (by rw [hpc]; rfl)⟩
  case endWait =>
    cases hs
    have hnone := h.holder_none (t := t) (by rw [hpc]; rfl) (by rw [hpc]; rfl)
    exact ⟨h.mutex.keep (by rw [hpc]; rfl), .lock (hnone ▸ h.holder) rfl,
      h.cond.keep (by rw [hpc]; rfl)⟩

/-- A thread at `holding` gives the lock up. -/
theorem Inv.unassign {p : Pc} (h : s.Inv) (ht : s.pc t = .holding) (hl : p.locked = true)
    (hh : p.holds = false) (hw : p.waits = false) :
    ({ s with holder := none }.setPc t p).Inv :=
  ⟨h.mutex.keep (by rw [hl, ht]; rfl), h.holder.unlock (by rw [ht]; rfl) hh,
    h.cond.keep (by rw [hw, ht]; rfl)⟩

/-- `holder_` is the caller's id exactly if it has the lock and is in no function. -/
theorem Inv.isLockedByThisThread_iff (h : s.Inv) :
    s.isLockedByThisThread t = true ↔ s.pc t = .holding := by
  rw [isLockedByThisThread, beq_iff_eq, ← h.holder t]
  cases s.pc t <;> simp [Pc.holds]

theorem Inv.of_step {a : Action θ} (h : s.Inv) (ha : s.Owned a) (hs : s.step a = some s') :
    s'.Inv := by
  cases a with
  | lock t =>
    obtain ⟨ht, hs⟩ := Option.ite_none_right_eq_some.mp hs
    cases hs
    exact ⟨h.mutex.keep (by rw [ht]; rfl), h.holder.keep (by rw [ht]; rfl),
      h.cond.keep (by rw [ht]; rfl)⟩
  | unlock t =>
    obtain ⟨-, hs⟩ := Option.ite_none_right_eq_some.mp hs
    cases hs
    exact h.unassign ha rfl rfl rfl
  | wait t =>
    obtain ⟨-, hs⟩ := Option.ite_none_right_eq_some.mp hs
    obtain ⟨ht, hs⟩ := Option.ite_none_right_eq_some.mp hs
    cases hs
    exact h.unassign (h.isLockedByThisThread_iff.mp ht) rfl rfl rfl
  | notify woken =>
    obtain ⟨c, hc, rfl⟩ := Option.map_eq_some_iff.mp hs
    exact ⟨h.mutex, h.holder, fun u => (Condition.has_of_notify hc).trans (h.cond u)⟩
  | notifyAll =>
    cases hs
    exact ⟨h.mutex, h.holder, fun u => Condition.has_wake.trans (h.cond u)⟩
  | next t => exact h.of_next hs
  | giveUp t =>
    obtain ⟨ht, hs⟩ := Option.ite_none_right_eq_some.mp hs
    cases hs
    exact ⟨h.mutex.keep (by rw [ht]; rfl), h.holder.keep (by rw [ht]; rfl), h.cond.resume rfl⟩

theorem inv_of_exec {as : List (Action θ)} (hg : Runs.Guarded step Owned new as)
    (h : Runs.exec step (new : MutexLock θ) as = some s) : s.Inv :=
  Runs.exec_invariant inv_new (fun _ _ _ ht ha hs => Inv.of_step ht ha hs) hg h

/-- **`holder_` is exact.** In every run of any number of threads, of which only those that have the
lock call `unlock()`: wherever the threads are, `isLockedByThisThread()` and `assertLocked()` answer
that the caller has the lock exactly if it does; at most one thread has it; the assertion of
`~MutexLock` passes exactly if none has; and the one of `wait()` ends the run of a caller without the
lock, and of no other. -/
theorem holder_exact {as : List (Action θ)} (hg : Runs.Guarded step Owned new as)
    (h : Runs.exec step (new : MutexLock θ) as = some s) :
    (∀ t, s.isLockedByThisThread t = true ↔ s.pc t = .holding) ∧
      (∀ t, s.assertLocked t = true ↔ s.pc t = .holding) ∧
      (∀ t u, s.pc t = .holding → s.pc u = .holding → t = u) ∧
      (s.mayDestroy = true ↔ ∀ t, s.pc t ≠ .holding) ∧
      ∀ t, s.pc t = .outside ∨ s.pc t = .holding →
        ((s.step (.wait t)).isSome = true ↔ s.pc t = .holding) := by
  have hinv := inv_of_exec hg h
  have hiff (t : θ) := hinv.isLockedByThisThread_iff (t := t)
  refine ⟨hiff, fun t => ?_, fun t u ht hu => ?_, ?_, fun t ht => ?_⟩
  · rw [assertLocked, Bool.and_eq_true, hiff t, and_iff_right_iff_imp]
    intro ht
    have hholder := (hiff t).mpr ht
    rw [isLockedByThisThread, beq_iff_eq] at hholder
    simp [hholder]
  · exact hinv.holder.unique (by rw [hu]; rfl) (by rw [ht]; rfl)
  · rw [mayDestroy, beq_iff_eq]
    constructor
    · intro hnone t ht
      have hout := (hnone ▸ hinv.holder).outside t
      rw [ht] at hout
      cases hout
    · intro hall
      rw [Option.eq_none_iff_forall_ne_some]
      intro t hholder
      refine hall t ((hiff t).mp ?_)
      simp [isLockedByThisThread, hholder]
  · rw [step, if_pos ht, ← hiff t]
    cases s.isLockedByThisThread t <;> simp

/-- A thread waits, another one takes the lock meanwhile and notifies it. -/
def handOver : List (Action ℕ) :=
  [.lock 1, .next 1, .next 1, .wait 1, .next 1, .lock 2, .next 2, .next 2, .notifyAll, .unlock 2,
    .next 1]

/-- The theorem at work: in between nobody has the lock, though it is not free. -/
theorem holder_exact_handOver : ∃ s : MutexLock ℕ, Runs.exec step new handOver = some s ∧
    s.mutex = some 2 ∧ s.mayDestroy = true ∧ s.pc 2 ≠ .holding := by
  have hrun : (Runs.exec step (new : MutexLock ℕ) handOver).map
      (fun s => (s.mutex, s.mayDestroy)) = some (some 2, true) := by
    decide +kernel
  obtain ⟨s, hs, heq⟩ := Option.map_eq_some_iff.mp hrun
  obtain ⟨hmutex, hdestroy⟩ := Prod.mk.inj heq
  obtain ⟨-, -, -, hiff, -⟩ := holder_exact (by decide +kernel) hs
  exact ⟨s, hs, hmutex, hdestroy, hiff.mp hdestroy 2⟩

/-! ## Who waits for the lock gets it -/

/-- A thread goes on, or unlocks. -/
def Action.Goes : Action θ → Prop
  | .next _ | .unlock _ => True
  | _ => False

/-- How many steps a thread that has locked the mutex is from giving it up. -/
def Pc.work : Pc → ℕ
  | assigning | endWait => 3
  | holding => 2
  | unlocking | beginWait => 1
  | _ => 0

/-- How many steps the mutex is from being free. -/
def work (s : MutexLock θ) : ℕ := s.mutex.elim 0 fun u => (s.pc u).work

/-- The thread that has locked the mutex comes closer to giving it up. -/
theorem Inv.release (h : s.Inv) (hu : s.mutex = some u) :
    ∃ a s', Action.Goes a ∧ s.Owned a ∧ s.step a = some s' ∧ (∀ t ≠ u, s'.pc t = s.pc t) ∧
      s'.work < s.work := by
  have hlocked : (s.pc u).locked = true := (h.mutex u).mpr hu
  have hwork : s.work = (s.pc u).work := by simp [work, hu]
  have hother {p : Pc} : ∀ t ≠ u, update s.pc u p t = s.pc t := fun t ht =>
    Function.update_of_ne ht _ _
  rw [hwork]
  cases hpc : s.pc u <;> rw [hpc] at hlocked
  case assigning =>
    have hs : s.step (.next u) = some ({ s with holder := some u }.setPc u .holding) := by
      simp only [step, next, hpc]
    exact ⟨.next u, _, trivial, trivial, hs, hother, by simp [work, setPc, hu, Pc.work]⟩
  case endWait =>
    have hs : s.step (.next u) = some ({ s with holder := some u }.setPc u .holding) := by
      simp only [step, next, hpc]
    exact ⟨.next u, _, trivial, trivial, hs, hother, by simp [work, setPc, hu, Pc.work]⟩
  case holding =>
    have hs : s.step (.unlock u) = some ({ s with holder := none }.setPc u .unlocking) :=
      if_pos (.inr hpc)
    exact ⟨.unlock u, _, trivial, hpc, hs, hother, by simp [work, setPc, hu, Pc.work]⟩
  case unlocking =>
    have hs : s.step (.next u) = some ({ s with mutex := none }.setPc u .outside) := by
      simp only [step, next, hpc]
      exact if_pos hu
    exact ⟨.next u, _, trivial, trivial, hs, hother, by simp [work, setPc, Pc.work]⟩
  case beginWait =>
    have hs : s.step (.next u) =
        some ({ s with mutex := none, cond := s.cond.wait u }.setPc u .waiting) := by
      simp only [step, next, hpc]
    exact ⟨.next u, _, trivial, trivial, hs, hother, by simp [work, setPc, Pc.work]⟩
  all_goals cases hlocked

end MutexLock

end Muduo
