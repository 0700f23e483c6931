import Muduo.Foundations.Condition
import Muduo.Foundations.Runs

/-! # `BlockingQueue`

The unbounded queue of `muduo/base/BlockingQueue.h`, with any number of threads. What a thread does
while it holds `mutex_` is one action; in `notEmpty_.wait()` it has released `mutex_`, and when it
returns it tests the queue again. -/

namespace Muduo

/-- `BlockingQueue<T>`, with the threads in `take`. -/
structure BlockingQueue (θ τ : Type*) where
  /-- `queue_`. -/
  queue : List τ
  /-- `notEmpty_`. -/
  notEmpty : Condition θ
  /-- The elements that were put, in order. -/
  puts : List τ
  /-- The elements that were taken or drained, in order. -/
  taken : List τ

namespace BlockingQueue

variable {θ τ : Type*}

/-- `BlockingQueue()`. -/
def new : BlockingQueue θ τ := ⟨[], .new, [], []⟩

variable [DecidableEq θ]

/-- `put(x)`: `notify` wakes the threads `woken`. -/
def put (s : BlockingQueue θ τ) (x : τ) (woken : Finset θ) : Option (BlockingQueue θ τ) :=
  (s.notEmpty.notify woken).map fun c =>
    { s with queue := s.queue ++ [x], notEmpty := c, puts := s.puts ++ [x] }

/-- `take()` from the test of its loop on, with `mutex_` held. -/
def takeLocked (s : BlockingQueue θ τ) (t : θ) : BlockingQueue θ τ :=
  match s.queue with
  | [] => { s with notEmpty := s.notEmpty.wait t }
  | x :: rest => { s with queue := rest, taken := s.taken ++ [x] }

/-- `drain()`. -/
def drain (s : BlockingQueue θ τ) : BlockingQueue θ τ :=
  { s with queue := [], taken := s.taken ++ s.queue }

/-- What can happen. -/
inductive Action (θ τ : Type*)
  /-- A thread calls `put(x)`, which wakes the threads `woken`. -/
  | put (t : θ) (x : τ) (woken : Finset θ)
  | take (t : θ)
  /-- A thread returns from `notEmpty_.wait()`. -/
  | resumeTake (t : θ)
  | drain (t : θ)

/-- One action. A thread in `wait()` calls nothing. -/
def step (s : BlockingQueue θ τ) : Action θ τ → Option (BlockingQueue θ τ)
  | .put t x woken => if s.notEmpty.Has t then none else s.put x woken
  | .take t => if s.notEmpty.Has t then none else some (s.takeLocked t)
  | .resumeTake t =>
    if s.notEmpty.Has t then some ({ s with notEmpty := s.notEmpty.resume t }.takeLocked t) else none
  | .drain t => if s.notEmpty.Has t then none else some s.drain

/-- Elements leave in the order in which they were put, each once, and no wakeup is lost. -/
structure Delivers (s : BlockingQueue θ τ) : Prop where
  /-- What was put was taken in this order, or is still there. -/
  order : s.puts = s.taken ++ s.queue
  /-- While a consumer waits un-notified, the elements are for those that are notified. -/
  consumers : s.notEmpty.Covers s.queue.length
  /-- While a consumer waits beside an element, another one resumes and takes it. -/
  progress : s.notEmpty.waiting.Nonempty → s.queue ≠ [] → ∃ t ∈ s.notEmpty.notified, ∃ s' x,
    s.step (.resumeTake t) = some s' ∧ s'.taken = s.taken ++ [x]

/-- The invariant. -/
structure Inv (s : BlockingQueue θ τ) : Prop where
  order : s.puts = s.taken ++ s.queue
  consumers : s.notEmpty.Covers s.queue.length

variable {s s' : BlockingQueue θ τ}

omit [DecidableEq θ] in
theorem inv_new : (new : BlockingQueue θ τ).Inv := ⟨rfl, Condition.covers_new⟩

/-- A thread that resumes makes room for what it takes. -/
theorem takeLocked_inv {t : θ} (horder : s.puts = s.taken ++ s.queue)
    (hcovers : s.notEmpty.Covers (s.queue.length - 1)) : (s.takeLocked t).Inv := by
  rw [takeLocked]
  split
  · next hq =>
    refine ⟨horder, ?_⟩
    simp only [hq, List.length_nil]
    exact Condition.covers_wait
  · next x rest hq =>
    rw [hq] at horder hcovers
    exact ⟨by simpa using horder, hcovers⟩

theorem Inv.step {a : Action θ τ} (h : s.Inv) (hs : s.step a = some s') : s'.Inv := by
  cases a with
  | put t x woken =>
    rw [BlockingQueue.step, Option.ite_none_left_eq_some] at hs
    obtain ⟨c, hc, rfl⟩ := Option.map_eq_some_iff.mp hs.2
    refine ⟨by rw [h.order, List.append_assoc], ?_⟩
    rw [List.length_append, List.length_singleton]
    exact h.consumers.notify hc
  | take t =>
    rw [BlockingQueue.step, Option.ite_none_left_eq_some] at hs
    cases hs.2
    exact takeLocked_inv h.order (h.consumers.mono (Nat.sub_le _ _))
  | resumeTake t =>
    rw [BlockingQueue.step, Option.ite_none_right_eq_some] at hs
    cases hs.2
    exact takeLocked_inv h.order h.consumers.resume
  | drain t =>
    rw [BlockingQueue.step, Option.ite_none_left_eq_some] at hs
    cases hs.2
    refine ⟨?_, h.consumers.mono (Nat.zero_le _)⟩
    show s.puts = s.taken ++ s.queue ++ []
    rw [List.append_nil]
    exact h.order

theorem Inv.delivers (h : s.Inv) : s.Delivers := by
  refine ⟨h.order, h.consumers, fun hw hq => ?_⟩
  obtain ⟨t, ht⟩ := h.consumers.notified_nonempty (List.length_pos_iff.mpr hq) hw
  obtain ⟨x, rest, hcons⟩ := List.exists_cons_of_ne_nil hq
  refine ⟨t, ht, _, x, if_pos (.inr ht), ?_⟩
  simp only [takeLocked, hcons]

/-- **In every run** the queue delivers. -/
theorem delivers_of_exec {as : List (Action θ τ)} (h : Runs.exec step new as = some s) :
    s.Delivers :=
  (Runs.exec_induction inv_new (fun _ _ _ h hs => Inv.step h hs) h).delivers

end BlockingQueue

end Muduo
