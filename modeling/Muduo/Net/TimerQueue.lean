import Mathlib.Data.Prod.Lex
import Mathlib.Algebra.Order.Ring.Int
import Mathlib.Logic.Function.Basic
import Muduo.Foundations.PriorityQueue
import Muduo.Foundations.Runs

/-! # `TimerQueue`

The timers of `muduo/net/TimerQueue.cc` and `muduo/net/Timer.h`, over any correct priority queue of
entries. A `Timer*` is an address, and the `Timer` objects are the memory at these addresses. A step
that touches an address at which there is no object is not possible, so a run has no cancel of a
timer that is deleted: that one writes to freed memory. What `assertOrder` checks is left to the
priority queue.

`handleRead` calls back in the middle of its work, so it is a sequence of actions: `handleRead`
takes the expired entries out, each `turn` looks at the next one, a callback adds and cancels timers
until it returns, and each `resetNext` requeues or deletes one timer. Timestamps are integers: their
arithmetic is taken not to overflow. -/

namespace Muduo

namespace Net

/-- `Timestamp`, in microseconds since the epoch. -/
abbrev Timestamp := ℤ

/-- What is read of a `double` number of seconds. -/
structure Seconds where
  /-- It is positive. -/
  positive : Bool
  /-- `static_cast<int64_t>(seconds * kMicroSecondsPerSecond)`. -/
  microSeconds : ℤ
deriving DecidableEq, Repr

/-- `addTime(timestamp, seconds)`. -/
def addTime (timestamp : Timestamp) (seconds : Seconds) : Timestamp :=
  timestamp + seconds.microSeconds

/-- `Timer`, apart from its callback. -/
structure Timer where
  /-- `expiration_`. -/
  expiration : Timestamp
  /-- `interval_`. -/
  interval : Seconds
  /-- `repeat_`. -/
  repeats : Bool
  /-- `canceled_`. -/
  canceled : Bool
  /-- `index_`. -/
  index : ℕ
deriving DecidableEq, Repr

namespace Timer

/-- `Timer(timerCallback, expiration, interval)`, the timer number `index`. -/
def new (expiration : Timestamp) (interval : Seconds) (index : ℕ) : Timer :=
  ⟨expiration, interval, interval.positive, false, index⟩

/-- `restart(now)`. -/
def restart (t : Timer) (now : Timestamp) : Timer :=
  if t.repeats then { t with expiration := addTime now t.interval }
  else { t with expiration := 0 }

/-- `cancel()`. -/
def cancel (t : Timer) : Timer := { t with canceled := true, repeats := false }

end Timer

/-- `TimerQueue::Entry`. -/
structure Entry where
  /-- `expiration()`. -/
  expiration : Timestamp
  /-- `timer()`: an address. -/
  timer : ℕ
deriving DecidableEq, Repr, Inhabited

namespace Entry

/-- The pair that is compared. -/
def toPair (e : Entry) : ℤ ×ₗ ℕ := toLex (e.expiration, e.timer)

theorem toPair_injective : Function.Injective toPair := by
  rintro ⟨a, b⟩ ⟨c, d⟩ h
  obtain ⟨rfl, rfl⟩ := Prod.mk.inj (toLex.injective h)
  rfl

/-- Entries are compared as pairs. -/
instance : LinearOrder Entry := LinearOrder.lift' toPair toPair_injective

theorem lt_iff {a b : Entry} :
    a < b ↔ a.expiration < b.expiration ∨ a.expiration = b.expiration ∧ a.timer < b.timer :=
  Prod.Lex.toLex_lt_toLex

end Entry

/-- `UINTPTR_MAX`. -/
def UINTPTR_MAX : ℕ := 2 ^ 64 - 1

/-- `struct timespec`. -/
structure Timespec where
  tv_sec : ℤ
  tv_nsec : ℤ
deriving DecidableEq, Repr

/-- `howMuchTimeFromNow(when)`, when the clock reads `clock`. -/
def howMuchTimeFromNow (expiration clock : Timestamp) : Timespec :=
  let microseconds := if expiration - clock < 100 then 100 else expiration - clock
  ⟨microseconds.tdiv 1000000, microseconds.tmod 1000000 * 1000⟩

/-- The setting of the timerfd: for which expiration, and the time until then. -/
structure Armed where
  /-- The expiration it was set for. -/
  expiration : Timestamp
  /-- `it_value`. -/
  value : Timespec
deriving DecidableEq, Repr

/-- Where the loop thread is. -/
inductive Phase
  /-- Outside `handleRead`. -/
  | idle
  /-- In the loop of `handleRead(now)`, with the entries it has done and has to do. -/
  | dispatching (now : Timestamp) (done todo : List Entry)
  /-- In the callback of the last entry done. -/
  | calling (now : Timestamp) (done todo : List Entry)
  /-- In the loop of `reset`, with the entries it has to do. -/
  | resetting (now : Timestamp) (todo : List Entry)
deriving DecidableEq, Repr

/-- What happens to timers, each given by its `index_`. -/
inductive TimerEvent
  | added (index : ℕ) (interval : Seconds)
  | cancelled (index : ℕ)
  /-- Its callback is run, for an expired entry. -/
  | ran (e : Entry) (index : ℕ)
  /-- Its callback is not run, for an expired entry. -/
  | skipped (e : Entry) (index : ℕ)
  | requeued (index : ℕ) (expiration : Timestamp)
  | deleted (index : ℕ)
deriving DecidableEq, Repr

/-- `TimerQueue`, with the objects it points to. -/
structure TimerQueue (Q : PriorityQueue Entry) where
  /-- The `Timer` objects, by address. -/
  timers : ℕ → Option Timer
  /-- `timerQueue_`. -/
  timerQueue : Q.Queue
  /-- `Timer::s_numCreated_`. -/
  numCreated : ℕ
  /-- The last `timerfd_settime` since the last expiry that was read. -/
  timerfd : Option Armed
  /-- Where the loop thread is. -/
  phase : Phase
  /-- What has happened so far. -/
  log : List TimerEvent

namespace TimerQueue

variable {Q : PriorityQueue Entry}

/-- `TimerQueue(loop)`. -/
def new : TimerQueue Q where
  timers := fun _ => none
  timerQueue := Q.new
  numCreated := 0
  timerfd := none
  phase := .idle
  log := []

/-- `resetTimerfd(timerfd_, expiration)`, when the clock reads `clock`. -/
def resetTimerfd (s : TimerQueue Q) (expiration clock : Timestamp) : TimerQueue Q :=
  { s with timerfd := some ⟨expiration, howMuchTimeFromNow expiration clock⟩ }

/-- Timers are added and cancelled outside `handleRead` and inside callbacks. -/
def Open : Phase → Bool
  | .idle => true
  | .calling _ _ _ => true
  | _ => false

/-- `timerQueue_.empty() || when < timerQueue_.top().expiration()`. -/
def earliestChanged (s : TimerQueue Q) (expiration : Timestamp) : Bool :=
  Q.empty s.timerQueue || (Q.top s.timerQueue).any fun e => expiration < e.expiration

/-- `addTimer(cb, expiration, interval)`: `new Timer` answers the address `timer`. -/
def addTimer (s : TimerQueue Q) (timer : ℕ) (expiration : Timestamp) (interval : Seconds)
    (clock : Timestamp) : TimerQueue Q :=
  let s' : TimerQueue Q := { s with
    timers := Function.update s.timers timer (some (.new expiration interval (s.numCreated + 1)))
    timerQueue := Q.push s.timerQueue ⟨expiration, timer⟩
    numCreated := s.numCreated + 1
    log := s.log ++ [.added (s.numCreated + 1) interval] }
  -- `top()` was compared before the push
  if s.earliestChanged expiration then s'.resetTimerfd expiration clock else s'

/-- `cancelInLoop(timerId)`. -/
def cancelInLoop (s : TimerQueue Q) (timer : ℕ) : Option (TimerQueue Q) :=
  (s.timers timer).map fun t =>
    { s with
      timers := Function.update s.timers timer (some t.cancel)
      log := s.log ++ [.cancelled t.index] }

/-- `getExpired(now)`: what is left of `timerQueue_`, and the expired entries. -/
def getExpired (s : TimerQueue Q) (now : Timestamp) : Option (Q.Queue × List Entry) :=
  Q.popBelow ⟨now, UINTPTR_MAX⟩ s.timerQueue

/-- `handleRead`, when the clock reads `now`, up to its loop. -/
def handleRead (s : TimerQueue Q) (now : Timestamp) : Option (TimerQueue Q) :=
  (s.getExpired now).map fun (q, expired) =>
    { s with timerQueue := q, timerfd := none, phase := .dispatching now [] expired }

/-- The next round of the loop of `handleRead`, or the end of this loop. -/
def turn (s : TimerQueue Q) (now : Timestamp) (done : List Entry) :
    List Entry → Option (TimerQueue Q)
  -- all due entries had their turn, and `reset(expired, now)` gets all of them
  | [] => some { s with phase := .resetting now done }
  | e :: todo => (s.timers e.timer).map fun t =>
    if t.canceled then
      { s with phase := .dispatching now (done ++ [e]) todo, log := s.log ++ [.skipped e t.index] }
    else { s with phase := .calling now (done ++ [e]) todo, log := s.log ++ [.ran e t.index] }

/-- The end of `reset`: the timerfd is set for the first entry. -/
def rearm (s : TimerQueue Q) (clock : Timestamp) : Option (TimerQueue Q) :=
  -- `nextExpiration` stays invalid
  if Q.empty s.timerQueue then some s
  else (Q.top s.timerQueue).bind fun e => (s.timers e.timer).map fun t =>
    if 0 < t.expiration then s.resetTimerfd t.expiration clock else s

/-- The end of `reset` changes the timerfd only. -/
theorem rearm_eq {s s' : TimerQueue Q} {clock : Timestamp} (hs : s.rearm clock = some s') :
    ∃ fd, s' = { s with timerfd := fd } := by
  rw [rearm] at hs
  split_ifs at hs
  · cases hs
    exact ⟨_, rfl⟩
  · obtain ⟨e, -, hs⟩ := Option.bind_eq_some_iff.mp hs
    obtain ⟨t, -, rfl⟩ := Option.map_eq_some_iff.mp hs
    split_ifs <;> exact ⟨_, rfl⟩

/-- The next round of the loop of `reset`, or its end. -/
def resetNext (s : TimerQueue Q) (now clock : Timestamp) : List Entry → Option (TimerQueue Q)
  | [] => (s.rearm clock).map fun s => { s with phase := .idle }
  | e :: todo => (s.timers e.timer).map fun t =>
    -- the callbacks, this timer's own included, may have cancelled it
    if t.repeats && !t.canceled then
      let t := t.restart now
      { s with
        timers := Function.update s.timers e.timer (some t)
        timerQueue := Q.push s.timerQueue ⟨t.expiration, e.timer⟩
        phase := .resetting now todo
        log := s.log ++ [.requeued t.index t.expiration] }
    else
      { s with
        timers := Function.update s.timers e.timer none
        phase := .resetting now todo
        log := s.log ++ [.deleted t.index] }

/-- What the loop thread can do. -/
inductive Action
  | addTimer (timer : ℕ) (expiration : Timestamp) (interval : Seconds) (clock : Timestamp)
  | cancelInLoop (timer : ℕ)
  | handleRead (now : Timestamp)
  | turn
  | callbackReturns
  | resetNext (clock : Timestamp)
deriving DecidableEq, Repr

/-- One action. A new `Timer` is below `UINTPTR_MAX`, at an address with no live one. -/
def step (s : TimerQueue Q) : Action → Option (TimerQueue Q)
  | .addTimer timer expiration interval clock =>
    if Open s.phase ∧ timer < UINTPTR_MAX ∧ s.timers timer = none then
      some (s.addTimer timer expiration interval clock)
    else none
  | .cancelInLoop timer => if Open s.phase then s.cancelInLoop timer else none
  | .handleRead now => if s.phase = .idle then s.handleRead now else none
  | .turn =>
    match s.phase with
    | .dispatching now done todo => s.turn now done todo
    | _ => none
  | .callbackReturns =>
    match s.phase with
    | .calling now done todo => some { s with phase := .dispatching now done todo }
    | _ => none
  | .resetNext clock =>
    match s.phase with
    | .resetting now todo => s.resetNext now clock todo
    | _ => none

end TimerQueue

end Net

end Muduo
