import Muduo.Base.MinHeapPriority
import Muduo.Net.TimerQueue

/-! # `TimerQueue::cancel`

A `TimerId` is the address of a `Timer` together with the number of this timer, and it outlives the
timer. `cancelInLoop` writes at the address, whatever is there by then: the number is not looked at.

`TimerHandles` is a `TimerQueue` together with the `TimerId`s that `addTimer` has answered and the
addresses at which `cancelInLoop` has written. The allocator may answer an address again once the
timer at it is deleted. -/

namespace Muduo

namespace Net

/-- `TimerId`. -/
structure TimerId where
  /-- `timer_`: an address. -/
  timer : ℕ
  /-- `index_`. -/
  index : ℕ
deriving DecidableEq, Repr

/-- A `TimerQueue`, with the `TimerId`s that are around. -/
structure TimerHandles (Q : PriorityQueue Entry) where
  /-- The queue, and the `Timer` objects. -/
  queue : TimerQueue Q
  /-- What `addTimer` has answered. -/
  issued : List TimerId
  /-- The addresses at which `Timer::cancel` has written. -/
  writes : List ℕ

namespace TimerHandles

variable {Q : PriorityQueue Entry}

/-- No timer yet. -/
def new : TimerHandles Q := ⟨.new, [], []⟩

/-- `addTimer(cb, expiration, interval)`, which answers a `TimerId`. -/
def addTimer (s : TimerHandles Q) (timer : ℕ) (expiration : Timestamp) (interval : Seconds)
    (clock : Timestamp) : Option (TimerHandles Q) :=
  (s.queue.step (.addTimer timer expiration interval clock)).map fun q =>
    { s with queue := q, issued := s.issued ++ [⟨timer, q.numCreated⟩] }

/-- `cancelInLoop(timerId)`: `timerId.timer_->cancel()`. Where no timer is at the address, the write
goes to memory that was freed. -/
def cancelInLoop (s : TimerHandles Q) (timerId : TimerId) : TimerHandles Q :=
  { s with
    queue := (s.queue.cancelInLoop timerId.timer).getD s.queue
    writes := s.writes ++ [timerId.timer] }

/-- What the loop thread can do. -/
inductive Action
  | addTimer (timer : ℕ) (expiration : Timestamp) (interval : Seconds) (clock : Timestamp)
  | cancelInLoop (timerId : TimerId)
  | handleRead (now : Timestamp)
  | turn
  | callbackReturns
  | resetNext (clock : Timestamp)
deriving DecidableEq, Repr

/-- An action of the queue that answers nothing. -/
def lift (s : TimerHandles Q) (a : TimerQueue.Action) : Option (TimerHandles Q) :=
  (s.queue.step a).map fun q => { s with queue := q }

/-- One action. Any `TimerId` that was answered may be cancelled, at any moment and any number of
times. -/
def step (s : TimerHandles Q) : Action → Option (TimerHandles Q)
  | .addTimer timer expiration interval clock => s.addTimer timer expiration interval clock
  | .cancelInLoop timerId =>
    if TimerQueue.Open s.queue.phase ∧ timerId ∈ s.issued then some (s.cancelInLoop timerId)
    else none
  | .handleRead now => s.lift (.handleRead now)
  | .turn => s.lift .turn
  | .callbackReturns => s.lift .callbackReturns
  | .resetNext clock => s.lift (.resetNext clock)

end TimerHandles

/-! ## What becomes of a timer -/

namespace TimerQueue

variable {Q : PriorityQueue Entry} {s s' : TimerQueue Q}

/-- `s'` is later than `s`: the log has grown, and a timer is still where it was or is deleted. -/
structure Later (s s' : TimerQueue Q) : Prop where
  log : s.log <+: s'.log
  timers : ∀ a t, s.timers a = some t →
    (∃ t', s'.timers a = some t' ∧ t'.index = t.index) ∨ .deleted t.index ∈ s'.log

namespace Later

/-- No timer is touched. -/
theorem of_timers_eq (ht : s'.timers = s.timers) (hlog : s.log <+: s'.log) : Later s s' := by
  refine ⟨hlog, fun a t hat => .inl ⟨t, ?_, rfl⟩⟩
  rw [ht]
  exact hat

/-- One timer is replaced by one with its number. -/
theorem of_update {a : ℕ} {t t' : Timer} (hat : s.timers a = some t) (hidx : t'.index = t.index)
    (ht : s'.timers = Function.update s.timers a (some t')) (hlog : s.log <+: s'.log) :
    Later s s' := by
  refine ⟨hlog, fun b u hb => .inl ?_⟩
  rw [ht]
  by_cases hab : b = a
  · subst hab
    rw [hat] at hb
    cases hb
    exact ⟨t', Function.update_self .., hidx⟩
  · exact ⟨u, by rw [Function.update_of_ne hab, hb], rfl⟩

/-- `delete`. -/
theorem of_delete {a : ℕ} {t : Timer} (hat : s.timers a = some t)
    (ht : s'.timers = Function.update s.timers a none) (hlog : s'.log = s.log ++ [.deleted t.index]) :
    Later s s' := by
  refine ⟨hlog ▸ List.prefix_append _ _, fun b u hb => ?_⟩
  by_cases hab : b = a
  · subst hab
    rw [hat] at hb
    cases hb
    exact .inr (hlog ▸ List.mem_append_right _ List.mem_cons_self)
  · exact .inl ⟨u, by rw [ht, Function.update_of_ne hab, hb], rfl⟩

/-- `new Timer`, at an address that is free. -/
theorem addTimer {timer : ℕ} (expiration : Timestamp) (interval : Seconds) (clock : Timestamp)
    (hfree : s.timers timer = none) : Later s (s.addTimer timer expiration interval clock) := by
  rw [TimerQueue.addTimer]
  split_ifs <;>
  · refine ⟨List.prefix_append _ _, fun a t hat => .inl ⟨t, ?_, rfl⟩⟩
    have hne : a ≠ timer := by
      rintro rfl
      rw [hfree] at hat
      cases hat
    exact (Function.update_of_ne hne _ _).trans hat

theorem cancelInLoop {timer : ℕ} (hs : s.cancelInLoop timer = some s') : Later s s' := by
  obtain ⟨t, ht, rfl⟩ := Option.map_eq_some_iff.mp hs
  exact of_update ht (rfl : t.cancel.index = t.index) rfl (List.prefix_append _ _)

theorem turn {now : Timestamp} {done todo : List Entry} (hs : s.turn now done todo = some s') :
    Later s s' := by
  cases todo with
  | nil =>
    cases hs
    exact of_timers_eq rfl List.prefix_rfl
  | cons e todo =>
    obtain ⟨t, -, hs⟩ := Option.map_eq_some_iff.mp hs
    split_ifs at hs <;> subst hs <;> exact of_timers_eq rfl (List.prefix_append _ _)

theorem resetNext {now clock : Timestamp} {todo : List Entry}
    (hs : s.resetNext now clock todo = some s') : Later s s' := by
  cases todo with
  | nil =>
    obtain ⟨u, hu, rfl⟩ := Option.map_eq_some_iff.mp hs
    obtain ⟨fd, rfl⟩ := TimerQueue.rearm_eq hu
    exact of_timers_eq rfl List.prefix_rfl
  | cons e todo =>
    obtain ⟨t, ht, hs⟩ := Option.map_eq_some_iff.mp hs
    by_cases hr : (t.repeats && !t.canceled) = true
    · -- the timer is restarted under its number
      rw [if_pos hr] at hs
      subst hs
      have hidx : (t.restart now).index = t.index := by
        rw [Timer.restart]
        split_ifs <;> rfl
      exact of_update ht hidx rfl (List.prefix_append _ _)
    · rw [if_neg hr] at hs
      subst hs
      exact of_delete ht rfl rfl

/-- **Every action of the queue** leaves a timer where it is or deletes it. -/
theorem step {a : Action} (hs : s.step a = some s') : Later s s' := by
  cases a with
  | addTimer timer expiration interval clock =>
    rw [TimerQueue.step] at hs
    split_ifs at hs with hcond
    cases hs
    exact addTimer expiration interval clock hcond.2.2
  | cancelInLoop timer =>
    rw [TimerQueue.step] at hs
    split_ifs at hs
    exact cancelInLoop hs
  | handleRead now =>
    rw [TimerQueue.step] at hs
    split_ifs at hs
    obtain ⟨⟨q, expired⟩, -, rfl⟩ := Option.map_eq_some_iff.mp hs
    exact of_timers_eq rfl List.prefix_rfl
  | turn =>
    rw [TimerQueue.step] at hs
    split at hs
    · exact turn hs
    · cases hs
  | callbackReturns =>
    rw [TimerQueue.step] at hs
    split at hs
    · cases hs
      exact of_timers_eq rfl List.prefix_rfl
    · cases hs
  | resetNext clock =>
    rw [TimerQueue.step] at hs
    split at hs
    · exact resetNext hs
    · cases hs

end Later

end TimerQueue

namespace TimerHandles

variable {Q : PriorityQueue Entry} {s s' : TimerHandles Q}

/-- The timer is gone: `reset` has deleted it. -/
def Gone (s : TimerHandles Q) (timerId : TimerId) : Prop := .deleted timerId.index ∈ s.queue.log

/-- The timer is at its address. -/
def Live (s : TimerHandles Q) (timerId : TimerId) : Prop :=
  ∃ t, s.queue.timers timerId.timer = some t ∧ t.index = timerId.index

/-- The invariant: a timer that was added is live or gone. -/
def Kept (s : TimerHandles Q) : Prop := ∀ timerId ∈ s.issued, s.Live timerId ∨ s.Gone timerId

/-- A timer that is live or gone is so later. -/
theorem live_or_gone_of_later (h : TimerQueue.Later s.queue s'.queue) {timerId : TimerId}
    (hid : s.Live timerId ∨ s.Gone timerId) : s'.Live timerId ∨ s'.Gone timerId := by
  rcases hid with ⟨t, ht, hidx⟩ | hgone
  · rw [Live, Gone, ← hidx]
    exact h.timers _ t ht
  · exact .inr (h.log.subset hgone)

theorem Kept.of_later (hkept : s.Kept) (h : TimerQueue.Later s.queue s'.queue)
    (hissued : s'.issued = s.issued) : s'.Kept := by
  intro timerId hid
  rw [hissued] at hid
  exact live_or_gone_of_later h (hkept timerId hid)

theorem Kept.lift (hkept : s.Kept) {a : TimerQueue.Action} (hs : s.lift a = some s') : s'.Kept := by
  obtain ⟨q, hq, rfl⟩ := Option.map_eq_some_iff.mp hs
  exact hkept.of_later (.step hq) rfl

theorem Kept.addTimer (hkept : s.Kept) {timer : ℕ} {expiration clock : Timestamp}
    {interval : Seconds} (hs : s.addTimer timer expiration interval clock = some s') : s'.Kept := by
  obtain ⟨q, hq, rfl⟩ := Option.map_eq_some_iff.mp hs
  intro timerId hid
  rcases List.mem_append.mp hid with hid | hid
  · exact live_or_gone_of_later (.step hq) (hkept timerId hid)
  · -- the new timer is where its `TimerId` says
    rw [List.mem_singleton.mp hid]
    refine .inl ⟨.new expiration interval (s.queue.numCreated + 1), ?_⟩
    rw [TimerQueue.step] at hq
    split_ifs at hq
    cases hq
    simp only [TimerQueue.addTimer]
    split_ifs <;> exact ⟨Function.update_self .., rfl⟩

theorem Kept.cancelInLoop (hkept : s.Kept) (timerId : TimerId) : (s.cancelInLoop timerId).Kept := by
  refine hkept.of_later ?_ rfl
  cases hc : s.queue.cancelInLoop timerId.timer with
  | none => simpa only [TimerHandles.cancelInLoop, hc] using .of_timers_eq rfl List.prefix_rfl
  | some q => simpa only [TimerHandles.cancelInLoop, hc] using .cancelInLoop hc

theorem Kept.step (hkept : s.Kept) {a : Action} (hs : s.step a = some s') : s'.Kept := by
  cases a with
  | addTimer timer expiration interval clock => exact hkept.addTimer hs
  | cancelInLoop timerId =>
    rw [TimerHandles.step] at hs
    split_ifs at hs
    cases hs
    exact hkept.cancelInLoop timerId
  | handleRead now => exact hkept.lift hs
  | turn => exact hkept.lift hs
  | callbackReturns => exact hkept.lift hs
  | resetNext clock => exact hkept.lift hs

/-! ## Only its own timer -/

/-- What a cancel may do: nothing if the timer is gone; else it writes to this timer, which is live
and has the number of the `TimerId`, and changes no other. -/
structure Confined (s : TimerHandles Q) (timerId : TimerId) (s' : TimerHandles Q) : Prop where
  gone : s.Gone timerId → s' = s
  live : ¬ s.Gone timerId → ∃ t, s.queue.timers timerId.timer = some t ∧ t.index = timerId.index ∧
    s'.writes = s.writes ++ [timerId.timer] ∧
    s'.queue.timers = Function.update s.queue.timers timerId.timer (some t.cancel)

/-- Every cancel of the run affects its own timer only. -/
def CancelsOwn (s : TimerHandles Q) (as : List Action) : Prop :=
  Runs.Each step (fun s a s' => ∀ timerId, a = .cancelInLoop timerId → s.Confined timerId s') s as

/-- No timer is cancelled that is gone. -/
def InTime (s : TimerHandles Q) : Action → Prop
  | .cancelInLoop timerId => ¬ s.Gone timerId
  | _ => True

instance (s : TimerHandles Q) : ∀ a, Decidable (s.InTime a)
  | .cancelInLoop timerId => inferInstanceAs (Decidable (¬ TimerEvent.deleted timerId.index ∈ _))
  | .addTimer .. | .handleRead _ | .turn | .callbackReturns | .resetNext _ =>
    inferInstanceAs (Decidable True)

/-- A cancel does what it may do exactly if its timer is not gone: it always writes. -/
theorem confined_cancelInLoop_iff (hkept : s.Kept) {timerId : TimerId} (hid : timerId ∈ s.issued) :
    s.Confined timerId (s.cancelInLoop timerId) ↔ ¬ s.Gone timerId := by
  refine ⟨fun h hgone => ?_, fun hgone => ⟨fun hg => absurd hg hgone, fun _ => ?_⟩⟩
  · -- it writes, and should not
    have hw := congrArg writes (h.gone hgone)
    simp [cancelInLoop] at hw
  · obtain ⟨t, ht, hidx⟩ := (hkept timerId hid).resolve_right hgone
    refine ⟨t, ht, hidx, rfl, ?_⟩
    simp only [cancelInLoop, TimerQueue.cancelInLoop, ht, Option.map_some, Option.getD_some]

/-- **When cancelling affects only its own timer.** In a run of a `TimerQueue`, over every correct
priority queue, every cancel touches only a live timer with the number of its `TimerId`, and does
nothing if this timer is gone, if and only if no `TimerId` is cancelled after its timer was
deleted. -/
theorem cancelsOwn_iff {as : List Action} (h : Runs.exec step (new : TimerHandles Q) as = some s) :
    CancelsOwn (new : TimerHandles Q) as ↔ Runs.Guarded step InTime (new : TimerHandles Q) as := by
  refine Runs.each_iff_guarded (I := Kept) (fun _ hid => absurd hid List.not_mem_nil)
    (fun t a t' ht hs => ht.step hs) (fun t a t' ht hs => ?_) h
  -- only a cancel is asked anything
  cases a with
  | cancelInLoop timerId =>
    rw [TimerHandles.step] at hs
    split_ifs at hs with hcond
    cases hs
    rw [InTime, ← confined_cancelInLoop_iff ht hcond.2]
    refine ⟨fun hc => hc timerId rfl, fun hc id hid => ?_⟩
    cases hid
    exact hc
  | _ => exact iff_of_true nofun trivial

/-- The heap of the code. -/
abbrev Heap : PriorityQueue Entry := MinHeap.priorityQueue Entry

/-- A timer for 45, which is deleted, and then a timer for 90, for which its address is reused. -/
def reuse : List Action :=
  [.addTimer 16 45 ⟨false, 0⟩ 0, .handleRead 46, .turn, .callbackReturns, .turn, .resetNext 46,
    .resetNext 46, .addTimer 16 90 ⟨false, 0⟩ 47]

/-- **Cancelling affects another timer.** The timer for 45 is cancelled after it has run, at 48:
this cancels the timer for 90. -/
theorem not_cancelsOwn : ∃ s : TimerHandles Heap,
    Runs.exec step (new : TimerHandles Heap) (reuse ++ [.cancelInLoop ⟨16, 1⟩]) = some s ∧
      (∃ t, s.queue.timers 16 = some t ∧ t.index = 2 ∧ t.canceled = true) ∧
      ¬ CancelsOwn (new : TimerHandles Heap) (reuse ++ [.cancelInLoop ⟨16, 1⟩]) := by
  have hrun : (Runs.exec step (new : TimerHandles Heap) reuse).map (fun s =>
      (s.queue.log, (s.cancelInLoop ⟨16, 1⟩).queue.timers 16,
        (s.step (.cancelInLoop ⟨16, 1⟩)).isSome)) =
      some ([.added 1 ⟨false, 0⟩, .ran ⟨45, 16⟩ 1, .deleted 1, .added 2 ⟨false, 0⟩],
        some ⟨90, ⟨false, 0⟩, false, true, 2⟩, true) := by decide +kernel
  obtain ⟨s, hs, hobs⟩ := Option.map_eq_some_iff.mp hrun
  simp only [Prod.mk.injEq] at hobs
  obtain ⟨hlog, htimer, hsome⟩ := hobs
  obtain ⟨s', hs'⟩ := Option.isSome_iff_exists.mp hsome
  have hlast := hs'
  rw [step] at hlast
  split_ifs at hlast
  cases hlast
  refine ⟨_, Runs.exec_concat_eq_some.mpr ⟨s, hs, hs'⟩, ⟨_, htimer, rfl, rfl⟩, fun hown => ?_⟩
  have hgone : s.Gone ⟨16, 1⟩ := by simp [Gone, hlog]
  have hw := congrArg writes
    ((hown reuse _ List.prefix_rfl s _ hs hs' _ rfl).gone hgone)
  simp [cancelInLoop] at hw

/-- A timer is cancelled twice in its own callback. -/
def cancelTwice : List Action :=
  [.addTimer 16 45 ⟨true, 5⟩ 0, .handleRead 46, .turn, .cancelInLoop ⟨16, 1⟩, .cancelInLoop ⟨16, 1⟩,
    .callbackReturns, .turn, .resetNext 46, .resetNext 46]

/-- The theorem at work: the timer is still there when it is cancelled. -/
theorem cancelsOwn_iff_twice : ∃ s : TimerHandles Heap,
    Runs.exec step (new : TimerHandles Heap) cancelTwice = some s ∧
      CancelsOwn (new : TimerHandles Heap) cancelTwice := by
  have hsome : (Runs.exec step (new : TimerHandles Heap) cancelTwice).isSome = true := by
    decide +kernel
  obtain ⟨s, hs⟩ := Option.isSome_iff_exists.mp hsome
  have hintime : Runs.Guarded step InTime (new : TimerHandles Heap) cancelTwice := by
    decide +kernel
  exact ⟨s, hs, (cancelsOwn_iff hs).mpr hintime⟩

end TimerHandles

end Net

end Muduo
