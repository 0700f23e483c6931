import Mathlib.Logic.Function.Basic
import Muduo.Base.BlockingQueue

/-! # `BoundedBlockingQueue`

The bounded queue of `muduo/base/BoundedBlockingQueue.h`, with any number of threads, in the same
terms as `BlockingQueue`. A producer that waits keeps the element that it puts. The buffer is a
parameter, of which `CircularBuffer.Documented` says what the queue relies on.

**`blockingQueues_deliver`**: both queues deliver in order, each element once, and lose no
wakeup. -/

namespace Muduo

/-- What the queue uses of `boost::circular_buffer<T>`, whose values are the `β`. -/
structure CircularBuffer (β τ : Type*) where
  /-- `circular_buffer(capacity)`. -/
  new : ℕ → β
  /-- `full()`. -/
  full : β → Bool
  /-- `empty()`. -/
  empty : β → Bool
  /-- `push_back(x)`. -/
  pushBack : β → τ → β
  /-- `front()`, `none` where it is undefined. -/
  front : β → Option τ
  /-- `pop_front()`, `none` where it is undefined. -/
  popFront : β → Option β
  /-- `capacity()`. -/
  capacity : β → ℕ
  /-- From `begin()` to `end()`. -/
  elems : β → List τ

namespace CircularBuffer

variable {β τ : Type*}

/-- What the library documents of them. Of `push_back` to a full buffer, of `front` and `pop_front`
of an empty one nothing is used. -/
structure Documented (B : CircularBuffer β τ) : Prop where
  elems_new : ∀ n, B.elems (B.new n) = []
  capacity_new : ∀ n, B.capacity (B.new n) = n
  length_le : ∀ b, (B.elems b).length ≤ B.capacity b
  full_iff : ∀ b, B.full b = true ↔ (B.elems b).length = B.capacity b
  empty_iff : ∀ b, B.empty b = true ↔ B.elems b = []
  elems_pushBack : ∀ b x, B.full b ≠ true → B.elems (B.pushBack b x) = B.elems b ++ [x]
  capacity_pushBack : ∀ b x, B.full b ≠ true → B.capacity (B.pushBack b x) = B.capacity b
  front_eq : ∀ b x rest, B.elems b = x :: rest → B.front b = some x
  exists_popFront : ∀ b x rest, B.elems b = x :: rest →
    ∃ b', B.popFront b = some b' ∧ B.elems b' = rest ∧ B.capacity b' = B.capacity b

/-- The slots that are free. -/
def freeSlots (B : CircularBuffer β τ) (b : β) : ℕ := B.capacity b - (B.elems b).length

variable {B : CircularBuffer β τ} {b b' : β} {x : τ} {rest : List τ}

theorem Documented.freeSlots_pushBack (hB : B.Documented) (h : B.full b ≠ true) (x : τ) :
    B.freeSlots (B.pushBack b x) = B.freeSlots b - 1 := by
  rw [freeSlots, freeSlots, hB.elems_pushBack b x h, hB.capacity_pushBack b x h,
    List.length_append, List.length_singleton]
  exact (Nat.sub_sub _ _ _).symm

theorem Documented.freeSlots_of_full (hB : B.Documented) (h : B.full b = true) :
    B.freeSlots b = 0 := by
  rw [freeSlots, (hB.full_iff b).mp h, Nat.sub_self]

/-- A slot is freed by each element that leaves. -/
theorem freeSlots_le_of_pop (hb : B.elems b = x :: rest) (helems : B.elems b' = rest)
    (hcap : B.capacity b' = B.capacity b) : B.freeSlots b' ≤ B.freeSlots b + 1 := by
  simp only [freeSlots, hb, helems, hcap, List.length_cons]
  omega

end CircularBuffer

/-- `BoundedBlockingQueue<T>`, with the threads in `put` and `take`. -/
structure BoundedBlockingQueue {β τ : Type*} (B : CircularBuffer β τ) (θ : Type*) where
  /-- `queue_`. -/
  queue : β
  /-- `notFull_`. -/
  notFull : Condition θ
  /-- `notEmpty_`. -/
  notEmpty : Condition θ
  /-- The argument of the `put` that a thread waits in. -/
  putting : θ → Option τ
  /-- The elements that were put, in order. -/
  puts : List τ
  /-- The elements that were taken, in order. -/
  taken : List τ

namespace BoundedBlockingQueue

variable {β θ τ : Type*} {B : CircularBuffer β τ}

/-- `BoundedBlockingQueue(maxSize)`. -/
def new (maxSize : ℕ) : BoundedBlockingQueue B θ :=
  ⟨B.new maxSize, .new, .new, fun _ => none, [], []⟩

variable [DecidableEq θ]

/-- `put(x)` from the test of its loop on, with `mutex_` held: `notify` wakes `woken`. -/
def putLocked (s : BoundedBlockingQueue B θ) (t : θ) (x : τ) (woken : Finset θ) :
    Option (BoundedBlockingQueue B θ) :=
  if B.full s.queue then
    some { s with notFull := s.notFull.wait t, putting := Function.update s.putting t (some x) }
  else
    (s.notEmpty.notify woken).map fun c =>
      { s with queue := B.pushBack s.queue x, notEmpty := c, puts := s.puts ++ [x] }

/-- `take()` from the test of its loop on, with `mutex_` held: `notify` wakes `woken`. -/
def takeLocked (s : BoundedBlockingQueue B θ) (t : θ) (woken : Finset θ) :
    Option (BoundedBlockingQueue B θ) :=
  if B.empty s.queue then
    some { s with notEmpty := s.notEmpty.wait t }
  else
    (B.front s.queue).bind fun x => (B.popFront s.queue).bind fun rest =>
      (s.notFull.notify woken).map fun c =>
        { s with queue := rest, notFull := c, taken := s.taken ++ [x] }

/-- The thread is in a `wait()`. -/
def Waits (s : BoundedBlockingQueue B θ) (t : θ) : Prop := s.notFull.Has t ∨ s.notEmpty.Has t

instance (s : BoundedBlockingQueue B θ) (t : θ) : Decidable (s.Waits t) :=
  inferInstanceAs (Decidable (s.notFull.Has t ∨ s.notEmpty.Has t))

/-- What can happen. A notification wakes the threads `woken`. -/
inductive Action (θ τ : Type*)
  | put (t : θ) (x : τ) (woken : Finset θ)
  /-- A thread returns from `notFull_.wait()`. -/
  | resumePut (t : θ) (woken : Finset θ)
  | take (t : θ) (woken : Finset θ)
  /-- A thread returns from `notEmpty_.wait()`. -/
  | resumeTake (t : θ) (woken : Finset θ)

/-- One action. A thread in `wait()` calls nothing. -/
def step (s : BoundedBlockingQueue B θ) : Action θ τ → Option (BoundedBlockingQueue B θ)
  | .put t x woken => if s.Waits t then none else s.putLocked t x woken
  | .resumePut t woken =>
    if s.notFull.Has t then
      (s.putting t).bind fun x => { s with notFull := s.notFull.resume t }.putLocked t x woken
    else none
  | .take t woken => if s.Waits t then none else s.takeLocked t woken
  | .resumeTake t woken =>
    if s.notEmpty.Has t then { s with notEmpty := s.notEmpty.resume t }.takeLocked t woken else none

/-- Elements leave in the order in which they were put, each once, the capacity is respected, and
no wakeup is lost. -/
structure Delivers (capacity : ℕ) (s : BoundedBlockingQueue B θ) : Prop where
  /-- What was put was taken in this order, or is still there: nothing was overwritten. -/
  order : s.puts = s.taken ++ B.elems s.queue
  bounded : (B.elems s.queue).length ≤ capacity
  /-- While a consumer waits un-notified, the elements are for those that are notified. -/
  consumers : s.notEmpty.Covers (B.elems s.queue).length
  /-- While a producer waits un-notified, the free slots are for those that are notified. -/
  producers : s.notFull.Covers (capacity - (B.elems s.queue).length)
  /-- While a consumer waits beside an element, another one resumes and takes it. -/
  consumerProceeds : s.notEmpty.waiting.Nonempty → B.elems s.queue ≠ [] →
    ∃ t ∈ s.notEmpty.notified, ∃ woken s' x,
      s.step (.resumeTake t woken) = some s' ∧ s'.taken = s.taken ++ [x]
  /-- While a producer waits beside a free slot, another one resumes and puts its element. -/
  producerProceeds : s.notFull.waiting.Nonempty → (B.elems s.queue).length < capacity →
    ∃ t ∈ s.notFull.notified, ∃ woken s' x, s.putting t = some x ∧
      s.step (.resumePut t woken) = some s' ∧ s'.puts = s.puts ++ [x]

/-- The invariant. -/
structure Inv (capacity : ℕ) (s : BoundedBlockingQueue B θ) : Prop where
  capacity_eq : B.capacity s.queue = capacity
  order : s.puts = s.taken ++ B.elems s.queue
  consumers : s.notEmpty.Covers (B.elems s.queue).length
  producers : s.notFull.Covers (B.freeSlots s.queue)
  putting : ∀ t, s.notFull.Has t → ∃ x, s.putting t = some x

variable {capacity : ℕ} {s s' : BoundedBlockingQueue B θ} {t : θ} {x : τ} {woken : Finset θ}

omit [DecidableEq θ] in
theorem inv_new (hB : B.Documented) : (new capacity : BoundedBlockingQueue B θ).Inv capacity := by
  have helems : B.elems (B.new capacity) = [] := hB.elems_new capacity
  refine ⟨hB.capacity_new capacity, ?_, Condition.covers_new, Condition.covers_new,
    fun _ h => absurd h Condition.not_has_new⟩
  exact helems.symm

/-- The invariant, where one producer that is on its way may have less to do than the others
count on. -/
theorem putLocked_inv (hB : B.Documented) (hcap : B.capacity s.queue = capacity)
    (horder : s.puts = s.taken ++ B.elems s.queue)
    (hconsumers : s.notEmpty.Covers (B.elems s.queue).length)
    (hproducers : s.notFull.Covers (B.freeSlots s.queue - 1))
    (hputting : ∀ u, s.notFull.Has u → ∃ y, s.putting u = some y)
    (h : s.putLocked t x woken = some s') : s'.Inv capacity := by
  rw [putLocked] at h
  split_ifs at h with hfull
  · -- it waits beside a full queue, where nothing is free
    cases h
    refine ⟨hcap, horder, hconsumers, ?_, fun u hu => ?_⟩
    · rw [hB.freeSlots_of_full hfull]
      exact Condition.covers_wait
    · by_cases hut : u = t
      · subst hut
        exact ⟨x, Function.update_self _ _ _⟩
      · obtain ⟨y, hy⟩ := hputting u ((Condition.has_wait.mp hu).resolve_left hut)
        exact ⟨y, (Function.update_of_ne hut _ _).trans hy⟩
  · obtain ⟨c, hc, rfl⟩ := Option.map_eq_some_iff.mp h
    have helems := hB.elems_pushBack s.queue x hfull
    refine ⟨(hB.capacity_pushBack s.queue x hfull).trans hcap, ?_, ?_, ?_, hputting⟩
    · show s.puts ++ [x] = s.taken ++ B.elems (B.pushBack s.queue x)
      rw [helems, horder, List.append_assoc]
    · show c.Covers (B.elems (B.pushBack s.queue x)).length
      rw [helems, List.length_append, List.length_singleton]
      exact hconsumers.notify hc
    · show s.notFull.Covers (B.freeSlots (B.pushBack s.queue x))
      rw [hB.freeSlots_pushBack hfull]
      exact hproducers

/-- `take()` beside an element takes the front out and notifies a producer. -/
theorem takeLocked_cons (hB : B.Documented) {rest : List τ} (hq : B.elems s.queue = x :: rest)
    (t : θ) (woken : Finset θ) :
    ∃ queue, B.elems queue = rest ∧ B.capacity queue = B.capacity s.queue ∧
      s.takeLocked t woken = (s.notFull.notify woken).map fun c =>
        { s with queue := queue, notFull := c, taken := s.taken ++ [x] } := by
  obtain ⟨queue, hpop, helems, hcap⟩ := hB.exists_popFront s.queue x rest hq
  have hempty : B.empty s.queue ≠ true := by
    rw [Ne, hB.empty_iff, hq]
    exact List.cons_ne_nil x rest
  refine ⟨queue, helems, hcap, ?_⟩
  rw [takeLocked, if_neg hempty, hB.front_eq s.queue x rest hq, hpop]
  rfl

theorem takeLocked_inv (hB : B.Documented) (hcap : B.capacity s.queue = capacity)
    (horder : s.puts = s.taken ++ B.elems s.queue)
    (hconsumers : s.notEmpty.Covers ((B.elems s.queue).length - 1))
    (hproducers : s.notFull.Covers (B.freeSlots s.queue))
    (hputting : ∀ u, s.notFull.Has u → ∃ y, s.putting u = some y)
    (h : s.takeLocked t woken = some s') : s'.Inv capacity := by
  cases hq : B.elems s.queue with
  | nil =>
    -- it waits beside an empty queue
    rw [takeLocked, if_pos ((hB.empty_iff s.queue).mpr hq)] at h
    cases h
    refine ⟨hcap, horder, ?_, hproducers, hputting⟩
    simp only [hq, List.length_nil]
    exact Condition.covers_wait
  | cons x rest =>
    obtain ⟨queue, helems, hsame, htake⟩ := takeLocked_cons hB hq t woken
    rw [htake] at h
    obtain ⟨c, hc, rfl⟩ := Option.map_eq_some_iff.mp h
    refine ⟨hsame.trans hcap, ?_, ?_, ?_, fun u hu =>
      hputting u ((Condition.has_of_notify hc).mp hu)⟩
    · show s.puts = s.taken ++ [x] ++ B.elems queue
      rw [horder, hq, helems, List.append_assoc]
      rfl
    · show s.notEmpty.Covers (B.elems queue).length
      rw [hq, List.length_cons, Nat.add_sub_cancel] at hconsumers
      exact helems ▸ hconsumers
    · exact (hproducers.notify hc).mono (CircularBuffer.freeSlots_le_of_pop hq helems hsame)

theorem Inv.step (hB : B.Documented) {a : Action θ τ} (h : s.Inv capacity)
    (hs : s.step a = some s') : s'.Inv capacity := by
  cases a with
  | put t x woken =>
    rw [BoundedBlockingQueue.step, Option.ite_none_left_eq_some] at hs
    exact putLocked_inv hB h.capacity_eq h.order h.consumers (h.producers.mono (Nat.sub_le _ _))
      h.putting hs.2
  | resumePut t woken =>
    rw [BoundedBlockingQueue.step, Option.ite_none_right_eq_some] at hs
    obtain ⟨x, -, hput⟩ := Option.bind_eq_some_iff.mp hs.2
    have hputting (u : θ) (hu : (s.notFull.resume t).Has u) : ∃ y, s.putting u = some y :=
      h.putting u (Condition.has_resume.mp hu).2
    exact putLocked_inv (s := { s with notFull := s.notFull.resume t }) hB h.capacity_eq h.order
      h.consumers h.producers.resume hputting hput
  | take t woken =>
    rw [BoundedBlockingQueue.step, Option.ite_none_left_eq_some] at hs
    exact takeLocked_inv hB h.capacity_eq h.order (h.consumers.mono (Nat.sub_le _ _)) h.producers
      h.putting hs.2
  | resumeTake t woken =>
    rw [BoundedBlockingQueue.step, Option.ite_none_right_eq_some] at hs
    exact takeLocked_inv (s := { s with notEmpty := s.notEmpty.resume t }) hB h.capacity_eq h.order
      h.consumers.resume h.producers h.putting hs.2

theorem Inv.delivers (hB : B.Documented) (h : s.Inv capacity) : s.Delivers capacity := by
  have hbounded : (B.elems s.queue).length ≤ capacity := h.capacity_eq ▸ hB.length_le s.queue
  have hfree : B.freeSlots s.queue = capacity - (B.elems s.queue).length := by
    rw [CircularBuffer.freeSlots, h.capacity_eq]
  refine ⟨h.order, hbounded, h.consumers, hfree ▸ h.producers, fun hw hq => ?_, fun hw hlt => ?_⟩
  · obtain ⟨t, ht⟩ := h.consumers.notified_nonempty (List.length_pos_iff.mpr hq) hw
    obtain ⟨x, rest, hcons⟩ := List.exists_cons_of_ne_nil hq
    obtain ⟨woken, c, hc⟩ := s.notFull.exists_notify
    obtain ⟨queue, -, -, htake⟩ := takeLocked_cons
      (s := { s with notEmpty := s.notEmpty.resume t }) hB hcons t woken
    have hstep : s.step (.resumeTake t woken) = some { s with
        queue := queue
        notFull := c
        notEmpty := s.notEmpty.resume t
        taken := s.taken ++ [x] } := by
      rw [BoundedBlockingQueue.step, if_pos (.inr ht), htake]
      simp only [hc, Option.map_some]
    exact ⟨t, ht, woken, _, x, hstep, rfl⟩
  · have hroom : 0 < B.freeSlots s.queue := hfree ▸ Nat.sub_pos_of_lt hlt
    obtain ⟨t, ht⟩ := h.producers.notified_nonempty hroom hw
    obtain ⟨x, hx⟩ := h.putting t (.inr ht)
    obtain ⟨woken, c, hc⟩ := s.notEmpty.exists_notify
    have hfull : B.full s.queue ≠ true := fun hf => by
      rw [hB.freeSlots_of_full hf] at hroom
      exact lt_irrefl 0 hroom
    have hstep : s.step (.resumePut t woken) = some { s with
        queue := B.pushBack s.queue x
        notFull := s.notFull.resume t
        notEmpty := c
        puts := s.puts ++ [x] } := by
      rw [BoundedBlockingQueue.step, if_pos (.inr ht)]
      simp only [hx, Option.bind_some, putLocked, if_neg hfull, hc, Option.map_some]
    exact ⟨t, ht, woken, _, x, hx, hstep, rfl⟩

/-- **In every run** the queue delivers. -/
theorem delivers_of_exec (hB : B.Documented) {as : List (Action θ τ)}
    (h : Runs.exec step (new capacity) as = some s) : s.Delivers capacity :=
  (Runs.exec_induction (inv_new hB) (fun _ _ _ h hs => Inv.step hB h hs) h).delivers hB

end BoundedBlockingQueue

/-- **The blocking queues deliver in order and never lose a wakeup.** For any threads, every
capacity and every interleaving of `put`, `take` and `drain`, in which a notification wakes at least
one waiter, if there is any, and a waiter may resume for no reason: elements leave in the order in
which they were put, each once, the bounded queue keeps its capacity, and while a thread waits
without having been notified, what it waits for is there for those that were; one of these can do
its operation. Of the bounded queue's buffer it uses what is documented. -/
theorem blockingQueues_deliver {β θ τ : Type*} [DecidableEq θ] (B : CircularBuffer β τ)
    (hB : B.Documented) :
    (∀ (capacity : ℕ) (as : List (BoundedBlockingQueue.Action θ τ)) (s : BoundedBlockingQueue B θ),
      Runs.exec BoundedBlockingQueue.step (.new capacity) as = some s → s.Delivers capacity) ∧
    ∀ (as : List (BlockingQueue.Action θ τ)) (s : BlockingQueue θ τ),
      Runs.exec BlockingQueue.step .new as = some s → s.Delivers :=
  ⟨fun _ _ _ h => BoundedBlockingQueue.delivers_of_exec hB h,
    fun _ _ h => BlockingQueue.delivers_of_exec h⟩

/-- A buffer that keeps the elements in a list, no longer than its capacity. -/
structure ListBuffer (τ : Type*) where
  capacity : ℕ
  elems : List τ
  length_le : elems.length ≤ capacity

namespace ListBuffer

variable {τ : Type*}

/-- A full buffer overwrites its front. -/
def pushBack (b : ListBuffer τ) (x : τ) : ListBuffer τ where
  capacity := b.capacity
  elems := (b.elems ++ [x]).drop (b.elems.length + 1 - b.capacity)
  length_le := by
    simp only [List.length_drop, List.length_append, List.length_singleton]
    omega

def popFront (b : ListBuffer τ) : Option (ListBuffer τ) :=
  match b with
  | ⟨_, [], _⟩ => none
  | ⟨capacity, _ :: rest, h⟩ => some ⟨capacity, rest, (Nat.le_succ _).trans h⟩

/-- Its operations. -/
def operations (τ : Type*) : CircularBuffer (ListBuffer τ) τ where
  new n := ⟨n, [], Nat.zero_le n⟩
  full b := decide (b.elems.length = b.capacity)
  empty b := b.elems.isEmpty
  pushBack := pushBack
  front b := b.elems.head?
  popFront := popFront
  capacity := capacity
  elems := elems

theorem documented : (operations τ).Documented where
  elems_new _ := rfl
  capacity_new _ := rfl
  length_le := length_le
  full_iff b := by simp [operations]
  empty_iff b := by simp [operations]
  elems_pushBack b x h := by
    have hne : b.elems.length ≠ b.capacity := by simpa [operations] using h
    have hroom : b.elems.length + 1 - b.capacity = 0 :=
      Nat.sub_eq_zero_of_le (lt_of_le_of_ne b.length_le hne)
    simp only [operations, pushBack, hroom, List.drop_zero]
  capacity_pushBack _ _ _ := rfl
  front_eq b x rest h := by simp [operations, show b.elems = x :: rest from h]
  exists_popFront b x rest h := by
    obtain ⟨capacity, elems, hle⟩ := b
    obtain rfl : elems = x :: rest := h
    exact ⟨_, rfl, rfl, rfl⟩

end ListBuffer

/-- Thread 1 waits for an element, thread 2 for room, and thread 3 takes before thread 1. -/
def barging : List (BoundedBlockingQueue.Action ℕ ℕ) :=
  [.take 1 ∅, .put 2 5 {1}, .put 2 6 ∅, .take 3 {2}, .resumeTake 1 ∅, .resumePut 2 {1}]

/-- Thread 1 waits for an element, and thread 2 drains the queue. -/
def drained : List (BlockingQueue.Action ℕ ℕ) := [.take 1, .put 2 5 {1}, .drain 2, .resumeTake 1]

/-- The theorem at work, on a queue of capacity 1 and an unbounded one. -/
theorem blockingQueues_deliver_barging :
    (∃ s : BoundedBlockingQueue (ListBuffer.operations ℕ) ℕ,
      Runs.exec BoundedBlockingQueue.step (.new 1) barging = some s ∧ s.taken = [5] ∧
        s.Delivers 1) ∧
    ∃ s : BlockingQueue ℕ ℕ, Runs.exec BlockingQueue.step .new drained = some s ∧
      s.taken = [5] ∧ s.Delivers := by
  constructor
  · have hrun : (Runs.exec BoundedBlockingQueue.step (.new 1) barging).map
        (BoundedBlockingQueue.taken (B := ListBuffer.operations ℕ)) = some [5] := by
      decide
    obtain ⟨s, hs, htaken⟩ := Option.map_eq_some_iff.mp hrun
    exact ⟨s, hs, htaken,
      (blockingQueues_deliver _ ListBuffer.documented).1 1 barging s hs⟩
  · have hrun : (Runs.exec BlockingQueue.step .new drained).map BlockingQueue.taken = some [5] := by
      decide
    obtain ⟨s, hs, htaken⟩ := Option.map_eq_some_iff.mp hrun
    exact ⟨s, hs, htaken,
      (blockingQueues_deliver _ (ListBuffer.documented (τ := ℕ))).2 drained s hs⟩

end Muduo
