import Muduo.Net.TimerService

/-! # The timerfd

`addTimerInLoop` sets the timerfd when the new timer is the earliest, and `reset` sets it for the
first timer that is left, if its expiration is `valid()`. Between the two a callback may have added
a timer whose expiration is not positive; then `addTimerInLoop` has set the timerfd already, since
what `getExpired` has left expires after `now`.

`Arming` is the invariant, and **`TimerQueue.timerfd_armed`** says that between two dispatches the
timerfd is set for the earliest timer. -/

namespace Muduo

namespace Net

/-- A time to come that `timerfd_settime` takes: not zero, and with less than a second of
nanoseconds. -/
structure Timespec.Valid (ts : Timespec) : Prop where
  ne_zero : ts ≠ ⟨0, 0⟩
  sec_nonneg : 0 ≤ ts.tv_sec
  nsec_nonneg : 0 ≤ ts.tv_nsec
  nsec_lt : ts.tv_nsec < 10 ^ 9

/-- At least 100 microseconds are left, whatever the clock reads. -/
theorem howMuchTimeFromNow_valid (expiration clock : Timestamp) :
    (howMuchTimeFromNow expiration clock).Valid := by
  obtain ⟨m, hm, heq⟩ : ∃ m : ℤ, 100 ≤ m ∧
      howMuchTimeFromNow expiration clock = ⟨m.tdiv 1000000, m.tmod 1000000 * 1000⟩ := by
    rw [howMuchTimeFromNow]
    split_ifs with hlt
    · exact ⟨100, le_rfl, rfl⟩
    · exact ⟨_, not_lt.mp hlt, rfl⟩
  rw [heq, Int.tdiv_eq_ediv_of_nonneg (by omega), Int.tmod_eq_emod_of_nonneg (by omega)]
  refine ⟨fun hzero => ?_, ?_, ?_, ?_⟩
  · obtain ⟨hsec, hnsec⟩ := Timespec.mk.inj hzero
    omega
  · exact Int.ediv_nonneg (by omega) (by omega)
  · show 0 ≤ m % 1000000 * 1000
    omega
  · show m % 1000000 * 1000 < 10 ^ 9
    omega

/-! ## The smallest expiration -/

/-- `x` is the smallest expiration of the entries. -/
structure Smallest (entries : Multiset Entry) (x : Timestamp) : Prop where
  mem : ∃ e ∈ entries, e.expiration = x
  le : ∀ e ∈ entries, x ≤ e.expiration

theorem Entry.expiration_le {a b : Entry} (h : a ≤ b) : a.expiration ≤ b.expiration := by
  rcases h.lt_or_eq with hlt | rfl
  · rcases Entry.lt_iff.mp hlt with hexp | ⟨hexp, -⟩
    · exact hexp.le
    · exact hexp.le
  · exact le_rfl

theorem Smallest.eq {entries : Multiset Entry} {x y : Timestamp} (hx : Smallest entries x)
    (hy : Smallest entries y) : x = y := by
  obtain ⟨e, he, rfl⟩ := hx.mem
  obtain ⟨f, hf, rfl⟩ := hy.mem
  exact le_antisymm (hx.le f hf) (hy.le e he)

/-- An entry before all others is the smallest. -/
theorem Smallest.cons {entries : Multiset Entry} {e : Entry}
    (h : ∀ f ∈ entries, e.expiration < f.expiration) : Smallest (e ::ₘ entries) e.expiration := by
  refine ⟨⟨e, Multiset.mem_cons_self _ _, rfl⟩, fun f hf => ?_⟩
  rcases Multiset.mem_cons.mp hf with rfl | hf
  · exact le_rfl
  · exact (h f hf).le

/-- An entry that is not before all others does not matter, and neither does one that is later than
the smallest. -/
theorem Smallest.of_cons {entries : Multiset Entry} {e : Entry} {x : Timestamp}
    (h : Smallest (e ::ₘ entries) x)
    (he : (∃ f ∈ entries, f.expiration ≤ e.expiration) ∨ x < e.expiration) :
    Smallest entries x := by
  have hle (f : Entry) (hf : f ∈ entries) : x ≤ f.expiration :=
    h.le f (Multiset.mem_cons_of_mem hf)
  refine ⟨?_, hle⟩
  obtain ⟨g, hg, hgx⟩ := h.mem
  rcases Multiset.mem_cons.mp hg with rfl | hg
  · rcases he with ⟨f, hf, hfe⟩ | hlt
    · exact ⟨f, hf, le_antisymm (hfe.trans hgx.le) (hle f hf)⟩
    · exact absurd hgx hlt.ne'
  · exact ⟨g, hg, hgx⟩

namespace TimerQueue

variable {Q : PriorityQueue Entry}

theorem smallest_top {s : TimerQueue Q} {e : Entry} (hmem : e ∈ Q.contents s.timerQueue)
    (hmin : ∀ f ∈ Q.contents s.timerQueue, e ≤ f) :
    Smallest (Q.contents s.timerQueue) e.expiration :=
  ⟨⟨e, hmem, rfl⟩, fun f hf => Entry.expiration_le (hmin f hf)⟩

/-- `addTimerInLoop` compares with the first entry, which stands for all of them. -/
theorem earliestChanged_iff (s : TimerQueue Q) (expiration : Timestamp) :
    s.earliestChanged expiration = true ↔
      ∀ e ∈ Q.contents s.timerQueue, expiration < e.expiration := by
  rw [earliestChanged, Bool.or_eq_true, Q.empty_iff]
  by_cases hne : Q.contents s.timerQueue = 0
  · rw [hne]
    exact iff_of_true (.inl rfl) fun e he => absurd he (Multiset.notMem_zero e)
  · obtain ⟨a, htop, hmem, hmin⟩ := Q.exists_top _ hne
    rw [htop, Option.any_some, decide_eq_true_iff]
    constructor
    · rintro (hzero | hlt) e he
      · exact absurd hzero hne
      · exact hlt.trans_le (Entry.expiration_le (hmin e he))
    · exact fun hall => .inr (hall a hmem)

/-! ## The invariant -/

/-- The last `timerfd_settime` since the last expiry that was read was for `x`. -/
def ArmedFor (s : TimerQueue Q) (x : Timestamp) : Prop :=
  ∃ a, s.timerfd = some a ∧ a.expiration = x

/-- The `now` of a `handleRead`. -/
def Phase.now? : Phase → Option Timestamp
  | .idle => none
  | .dispatching now _ _ => some now
  | .calling now _ _ => some now
  | .resetting now _ => some now

/-- The clock is read after the epoch, and a positive interval is not a negative number of
microseconds, as long as its conversion does not overflow. -/
def Timely : Action → Prop
  | .handleRead now => 0 < now
  | .addTimer _ _ interval _ => interval.positive = true → 0 ≤ interval.microSeconds
  | _ => True

/-- **The timerfd is set for the smallest expiration**, in the middle of `handleRead` only if it is
not positive: a positive one is left to `reset`. -/
structure Arming (s : TimerQueue Q) : Prop where
  armed : ∀ x, Smallest (Q.contents s.timerQueue) x → s.phase = .idle ∨ x ≤ 0 → s.ArmedFor x
  value : ∀ a, s.timerfd = some a → a.value.Valid
  now_pos : ∀ now, Phase.now? s.phase = some now → 0 < now
  interval : ∀ a t, s.timers a = some t → t.repeats = true → 0 ≤ t.interval.microSeconds

theorem arming_new : (new : TimerQueue Q).Arming := by
  refine ⟨fun x hx => ?_, nofun, nofun, nofun⟩
  obtain ⟨e, he, -⟩ := hx.mem
  rw [show Q.contents (new : TimerQueue Q).timerQueue = 0 from Q.contents_new] at he
  exact absurd he (Multiset.notMem_zero e)

/-- The timerfd is set. -/
theorem Arming.resetTimerfd {s : TimerQueue Q} {x : Timestamp} (clock : Timestamp)
    (hx : Smallest (Q.contents s.timerQueue) x)
    (hnow : ∀ now, Phase.now? s.phase = some now → 0 < now)
    (hinterval : ∀ a t, s.timers a = some t → t.repeats = true → 0 ≤ t.interval.microSeconds) :
    (s.resetTimerfd x clock).Arming := by
  refine ⟨fun y hy _ => ⟨_, rfl, hx.eq hy⟩, fun a ha => ?_, hnow, hinterval⟩
  cases ha
  exact howMuchTimeFromNow_valid x clock

/-- An action that changes neither the heap nor the timerfd. -/
theorem Arming.keep {s t : TimerQueue Q} (h : s.Arming) (hqueue : t.timerQueue = s.timerQueue)
    (hfd : t.timerfd = s.timerfd) (hphase : t.phase = .idle → s.phase = .idle)
    (hnow : ∀ now, Phase.now? t.phase = some now → 0 < now)
    (hinterval : ∀ a u, t.timers a = some u → u.repeats = true → 0 ≤ u.interval.microSeconds) :
    t.Arming := by
  refine ⟨fun x hx hcase => ?_, fun a ha => h.value a (hfd ▸ ha), hnow, hinterval⟩
  obtain ⟨a, ha, hax⟩ := h.armed x (hqueue ▸ hx) (hcase.imp_left hphase)
  exact ⟨a, hfd.trans ha, hax⟩

/-- A step that stays in the dispatch, or begins it. -/
theorem Arming.goOn {s t : TimerQueue Q} {now : Timestamp} (h : s.Arming)
    (hqueue : t.timerQueue = s.timerQueue) (hfd : t.timerfd = s.timerfd)
    (hphase : Phase.now? t.phase = some now) (hnow : 0 < now)
    (hinterval : ∀ a u, t.timers a = some u → u.repeats = true → 0 ≤ u.interval.microSeconds) :
    t.Arming := by
  refine h.keep hqueue hfd (fun hidle => ?_) (fun n hn => ?_) hinterval
  · rw [hidle] at hphase
    cases hphase
  · cases hphase.symm.trans hn
    exact hnow

theorem Arming.addTimer {s : TimerQueue Q} (h : s.Arming) (timer : ℕ) (expiration : Timestamp)
    {interval : Seconds} (clock : Timestamp)
    (hiv : interval.positive = true → 0 ≤ interval.microSeconds) :
    (s.addTimer timer expiration interval clock).Arming := by
  have hinterval (a : ℕ) (t : Timer)
      (ht : Function.update s.timers timer
        (some (.new expiration interval (s.numCreated + 1))) a = some t)
      (hrep : t.repeats = true) : 0 ≤ t.interval.microSeconds := by
    rcases Sound.update_eq_some ht with ⟨-, heq⟩ | ⟨-, ht⟩
    · cases heq
      exact hiv hrep
    · exact h.interval a t ht hrep
  rw [TimerQueue.addTimer]
  split_ifs with hchanged
  · -- the new timer is the earliest
    refine Arming.resetTimerfd clock ?_ h.now_pos hinterval
    show Smallest (Q.contents (Q.push s.timerQueue ⟨expiration, timer⟩)) expiration
    rw [Q.contents_push]
    exact Smallest.cons ((s.earliestChanged_iff expiration).mp hchanged)
  · rw [earliestChanged_iff] at hchanged
    push Not at hchanged
    refine ⟨fun x hx hcase => h.armed x ?_ hcase, h.value, h.now_pos, hinterval⟩
    have hx : Smallest (Q.contents (Q.push s.timerQueue ⟨expiration, timer⟩)) x := hx
    rw [Q.contents_push] at hx
    exact hx.of_cons (.inl hchanged)

theorem Arming.cancelInLoop {s s' : TimerQueue Q} (h : s.Arming) {timer : ℕ}
    (hs : s.cancelInLoop timer = some s') : s'.Arming := by
  obtain ⟨t, ht, rfl⟩ := Option.map_eq_some_iff.mp hs
  refine h.keep rfl rfl id h.now_pos fun a u hu hrep => ?_
  rcases Sound.update_eq_some hu with ⟨-, heq⟩ | ⟨-, hu⟩
  · -- a cancelled timer does not repeat
    cases heq
    cases hrep
  · exact h.interval a u hu hrep

/-- After `getExpired` no expiration is left that is not positive. -/
theorem Arming.handleRead {s s' : TimerQueue Q} (h : s.Arming) (hinv : s.Inv) {now : Timestamp}
    (hnow : 0 < now) (hs : s.handleRead now = some s') : s'.Arming := by
  obtain ⟨⟨q, expired⟩, hpop, rfl⟩ := Option.map_eq_some_iff.mp hs
  obtain ⟨q', hpop', hq⟩ := PriorityQueue.popBelow_spec (⟨now, UINTPTR_MAX⟩ : Entry) s.timerQueue
  rw [getExpired, hpop'] at hpop
  cases hpop
  refine ⟨fun x hx hcase => ?_, by rintro _ ⟨⟩, fun n hn => ?_, h.interval⟩
  · obtain ⟨e, he, rfl⟩ := hx.mem
    have he : e ∈ Q.contents q := he
    rw [hq] at he
    obtain ⟨hmem, hbound⟩ := Multiset.mem_filter.mp he
    rw [hinv.lt_bound_iff hmem] at hbound
    have hle : e.expiration ≤ 0 := hcase.resolve_left (by rintro ⟨⟩)
    exact absurd (hle.trans hnow.le) hbound
  · cases hn
    exact hnow

theorem Arming.turn {s s' : TimerQueue Q} (h : s.Arming) {now : Timestamp} {done todo : List Entry}
    (hphase : s.phase = .dispatching now done todo) (hs : s.turn now done todo = some s') :
    s'.Arming := by
  have hnow : 0 < now := h.now_pos now (by rw [hphase]; rfl)
  cases todo with
  | nil =>
    cases hs
    exact h.goOn rfl rfl rfl hnow h.interval
  | cons e todo =>
    obtain ⟨t, -, rfl⟩ := Option.map_eq_some_iff.mp hs
    split_ifs
    · exact h.goOn rfl rfl rfl hnow h.interval
    · exact h.goOn rfl rfl rfl hnow h.interval

/-- `reset` sets the timerfd for the first timer, unless its expiration is not positive. -/
theorem Arming.rearm {s s' : TimerQueue Q} {clock : Timestamp} (h : s.Arming) (hinv : s.Inv)
    (hs : s.rearm clock = some s') : { s' with phase := .idle }.Arming := by
  rw [TimerQueue.rearm] at hs
  split_ifs at hs with hempty
  · cases hs
    refine ⟨fun x hx _ => ?_, h.value, by rintro _ ⟨⟩, h.interval⟩
    obtain ⟨e, he, -⟩ := hx.mem
    have he : e ∈ Q.contents s.timerQueue := he
    rw [(Q.empty_iff _).mp hempty] at he
    exact absurd he (Multiset.notMem_zero e)
  · have hne : Q.contents s.timerQueue ≠ 0 := fun h0 => hempty ((Q.empty_iff _).mpr h0)
    obtain ⟨e, htop, hmem, hmin⟩ := Q.exists_top _ hne
    obtain ⟨t, ht, hexp⟩ := hinv.live e (Multiset.mem_add.mpr (.inl hmem))
    have hfirst := smallest_top hmem hmin
    rw [htop, Option.bind_some, ht, Option.map_some, Option.some_inj] at hs
    subst hs
    split_ifs with hvalid
    · rw [hexp]
      exact Arming.resetTimerfd (s := { s with phase := .idle }) clock hfirst
        (by rintro _ ⟨⟩) h.interval
    · -- such a timer was added in this dispatch, and `addTimerInLoop` has set the timerfd
      refine ⟨fun x hx _ => ?_, h.value, by rintro _ ⟨⟩, h.interval⟩
      have hx : x = e.expiration := Smallest.eq hx hfirst
      rw [hx]
      exact h.armed _ hfirst (.inr (hexp ▸ not_lt.mp hvalid))

theorem Arming.resetNext {s s' : TimerQueue Q} (h : s.Arming) (hinv : s.Inv) {now clock : Timestamp}
    {todo : List Entry} (hphase : s.phase = .resetting now todo)
    (hs : s.resetNext now clock todo = some s') : s'.Arming := by
  have hnow : 0 < now := h.now_pos now (by rw [hphase]; rfl)
  cases todo with
  | nil =>
    obtain ⟨u, hu, rfl⟩ := Option.map_eq_some_iff.mp hs
    exact h.rearm hinv hu
  | cons e todo =>
    obtain ⟨t, ht, rfl⟩ := Option.map_eq_some_iff.mp hs
    split_ifs with hrep
    · have hrep : t.repeats = true := (Bool.and_eq_true_iff.mp hrep).1
      have hiv : 0 ≤ t.interval.microSeconds := h.interval _ t ht hrep
      have hrestart : t.restart now = { t with expiration := addTime now t.interval } := by
        rw [Timer.restart, if_pos hrep]
      refine ⟨fun x hx hcase => ?_, h.value, fun n hn => by cases hn; exact hnow,
        fun a u hu hrepu => ?_⟩
      · -- the timer that is requeued expires after `now`
        have hle : x ≤ 0 := hcase.resolve_left (by rintro ⟨⟩)
        have hx : Smallest (Q.contents (Q.push s.timerQueue
          ⟨(t.restart now).expiration, e.timer⟩)) x := hx
        rw [Q.contents_push, hrestart] at hx
        refine h.armed x (hx.of_cons (.inr ?_)) (.inr hle)
        exact (hle.trans_lt hnow).trans_le (le_add_of_nonneg_right hiv)
      · rcases Sound.update_eq_some hu with ⟨-, heq⟩ | ⟨-, hu⟩
        · cases heq
          rw [hrestart]
          exact hiv
        · exact h.interval a u hu hrepu
    · refine h.goOn rfl rfl rfl hnow fun a u hu hrepu => ?_
      rcases Sound.update_eq_some hu with ⟨-, heq⟩ | ⟨-, hu⟩
      · cases heq
      · exact h.interval a u hu hrepu

/-- **Every action keeps the timerfd set.** -/
theorem Arming.step {s s' : TimerQueue Q} {a : Action} (h : s.Arming) (hinv : s.Inv)
    (ha : Timely a) (hs : step s a = some s') : s'.Arming := by
  cases a with
  | addTimer timer expiration interval clock =>
    rw [TimerQueue.step, Option.ite_none_right_eq_some] at hs
    cases hs.2
    exact h.addTimer timer expiration clock ha
  | cancelInLoop timer =>
    rw [TimerQueue.step, Option.ite_none_right_eq_some] at hs
    exact h.cancelInLoop hs.2
  | handleRead now =>
    rw [TimerQueue.step, Option.ite_none_right_eq_some] at hs
    exact h.handleRead hinv ha hs.2
  | turn =>
    cases hphase : s.phase with
    | dispatching now done todo =>
      rw [TimerQueue.step, hphase] at hs
      exact h.turn hphase hs
    | _ => rw [TimerQueue.step, hphase] at hs; cases hs
  | callbackReturns =>
    cases hphase : s.phase with
    | calling now done todo =>
      rw [TimerQueue.step, hphase] at hs
      cases hs
      have hnow : 0 < now := h.now_pos now (by rw [hphase]; rfl)
      exact h.goOn rfl rfl rfl hnow h.interval
    | _ => rw [TimerQueue.step, hphase] at hs; cases hs
  | resetNext clock =>
    cases hphase : s.phase with
    | resetting now todo =>
      rw [TimerQueue.step, hphase] at hs
      exact h.resetNext hinv hphase hs
    | _ => rw [TimerQueue.step, hphase] at hs; cases hs

/-- **The timerfd is always armed for the earliest timer.** Over every correct priority queue, in
every run in which the clock is read after the epoch, in every state between two dispatches: if a
timer is queued, the last `timerfd_settime` since the last expiry that was read was for the smallest
expiration, and its `it_value` is not zero and well formed. -/
theorem timerfd_armed {as : List Action} {s : TimerQueue Q}
    (h : Runs.exec step (new : TimerQueue Q) as = some s) (has : ∀ a ∈ as, Timely a)
    (hidle : s.phase = .idle) (hne : Q.contents s.timerQueue ≠ 0) :
    ∃ a, s.timerfd = some a ∧ Smallest (Q.contents s.timerQueue) a.expiration ∧
      a.value.Valid := by
  have htimely : Runs.Guarded step (fun _ a => Timely a) (new : TimerQueue Q) as :=
    Runs.guarded_of_forall has
  have harm : s.Inv ∧ s.Arming :=
    Runs.exec_invariant (I := fun s : TimerQueue Q => s.Inv ∧ s.Arming) ⟨inv_new, arming_new⟩
      (fun t a t' ht ha hs => ⟨ht.1.step hs, ht.2.step ht.1 ha hs⟩) htimely h
  obtain ⟨e, -, hmem, hmin⟩ := Q.exists_top _ hne
  have hfirst := smallest_top hmem hmin
  obtain ⟨a, ha, hexp⟩ := harm.2.armed _ hfirst (.inl hidle)
  refine ⟨a, ha, ?_, harm.2.value a ha⟩
  rw [hexp]
  exact hfirst

/-- A timer that repeats is due at 12, and its callback adds one that expired before the epoch. -/
def overdue : List Action :=
  [.addTimer 16 10 ⟨true, 5⟩ 5, .handleRead 12, .turn, .addTimer 32 (-3) ⟨false, 0⟩ 11,
    .callbackReturns, .turn, .resetNext 12, .resetNext 12]

/-- The theorem at work: the timerfd is set for that timer, in 100 microseconds. -/
theorem timerfd_armed_overdue : ∃ (s : TimerQueue Heap) (a : Armed),
    Runs.exec step (new : TimerQueue Heap) overdue = some s ∧ s.timerfd = some a ∧
      a = ⟨-3, ⟨0, 100000⟩⟩ ∧ Smallest (Heap.contents s.timerQueue) a.expiration ∧
      a.value.Valid := by
  have hrun : (Runs.exec step (new : TimerQueue Heap) overdue).map (fun s =>
      (s.phase, Heap.empty s.timerQueue, s.timerfd)) =
        some (.idle, false, some ⟨-3, ⟨0, 100000⟩⟩) := by
    decide +kernel
  obtain ⟨s, hs, hobs⟩ := Option.map_eq_some_iff.mp hrun
  simp only [Prod.mk.injEq] at hobs
  obtain ⟨hidle, hempty, hfd⟩ := hobs
  have htimely : ∀ a ∈ overdue, Timely a := by
    simp [overdue, Timely]
  have hne : Heap.contents s.timerQueue ≠ 0 := by
    rw [ne_eq, ← Heap.empty_iff, hempty]
    exact Bool.false_ne_true
  obtain ⟨a, ha, hsmall, hvalid⟩ := timerfd_armed hs htimely hidle hne
  exact ⟨s, a, hs, ha, Option.some.inj (ha.symm.trans hfd), hsmall, hvalid⟩

end TimerQueue

end Net

end Muduo
