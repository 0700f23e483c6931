import Muduo.Base.Decimal
import Muduo.Net.EventLoopThread

/-! # `EventLoopThreadPool`

`start()` and `getNextLoop()` of `muduo/net/EventLoopThreadPool.cc`. The base thread makes one
`EventLoopThread` after the other and waits in the `startLoop()` of each, while the threads that it
has already made go on. A pointer to an `EventLoop` is the `threadId_` of the loop.

* **`EventLoopThreadPool.start_gives_loops`**: whatever `getNextLoop()` returns is the base loop or
  the loop of a thread of the pool, and when `start()` has returned, `loops_` has the loop of each
  thread;
* **`EventLoopThreadPool.start_returns`**: `start()` returns if and only if no `pthread_create`
  fails. -/

namespace Muduo

namespace Net

namespace EventLoopThreadPool

/-- Where the base thread is. -/
inductive Pc
  /-- Not in `start()`. -/
  | outside
  /-- At `i<numThreads_`. -/
  | at (i : ℕ)
  /-- In `thread->startLoop()` of the thread that it has just made. -/
  | starting (i : ℕ)
deriving DecidableEq, Repr

/-- The threads that are made and have not yet given their loop. -/
def Pc.pending : Pc → ℕ
  | starting _ => 1
  | _ => 0

end EventLoopThreadPool

/-- `EventLoopThreadPool`. -/
structure EventLoopThreadPool where
  /-- `name_`. -/
  name : Bytes
  /-- `baseLoop_`. -/
  baseLoop : ℕ
  /-- `numThreads_`. -/
  numThreads : ℤ
  /-- `threads_`. -/
  threads : List EventLoopThread
  /-- `loops_`. -/
  loops : List (Option ℕ)
  /-- `next_`. -/
  next : ℕ
  pc : EventLoopThreadPool.Pc
  /-- What `getNextLoop()` has returned. -/
  given : List (Option ℕ)

namespace EventLoopThreadPool

/-- `EventLoopThreadPool(baseLoop, name)`. -/
def new (name : Bytes) (baseLoop : ℕ) : EventLoopThreadPool :=
  ⟨name, baseLoop, 0, [], [], 0, .outside, []⟩

/-- What can happen. -/
inductive Action
  /-- `setThreadNum(numThreads)`. -/
  | setThreadNum (numThreads : ℤ)
  /-- The base thread calls `start()`. -/
  | start
  /-- The base thread goes on in `start()`. -/
  | next
  /-- A thread of the pool goes on, or the base thread in its `startLoop()`. -/
  | thread (k : ℕ) (a : EventLoopThread.Action)
  /-- The base thread calls `getNextLoop()`. -/
  | getNextLoop
deriving DecidableEq, Repr

/-- The name of the thread `i`: `"%s%d"`. -/
def threadName (s : EventLoopThreadPool) (i : ℕ) : Bytes :=
  s.name.takeWhile (· ≠ 0) ++ ascii (toString (i : ℤ))

/-- The base thread goes on in `start()`: it makes the next thread and calls its `startLoop()`, or
keeps what the `startLoop()` of the last one has returned. -/
def goOn (s : EventLoopThreadPool) : Option EventLoopThreadPool :=
  match s.pc with
  | .outside => none
  | .at i =>
    if (i : ℤ) < s.numThreads then
      ((EventLoopThread.new (s.threadName i)).step .startLoop).map fun t =>
        { s with threads := s.threads ++ [t], pc := .starting i }
    else some { s with pc := .outside }
  | .starting i => s.threads.getLast?.bind fun t =>
    if t.owner = .idle then
      t.returned.getLast?.map fun p => { s with loops := s.loops ++ [p], pc := .at (i + 1) }
    else none

/-- One action. -/
def step (s : EventLoopThreadPool) : Action → Option EventLoopThreadPool
  | .setThreadNum numThreads =>
    if s.pc = .outside then some { s with numThreads := numThreads } else none
  | .start => if s.pc = .outside then some { s with pc := .at 0 } else none
  | .next => s.goOn
  | .thread k a =>
    if a ≠ .startLoop ∧ a ≠ .destroy then
      s.threads[k]?.bind fun t => (t.step a).map fun u => { s with threads := s.threads.set k u }
    else none
  | .getNextLoop =>
    if s.pc = .outside then
      if s.loops = [] then some { s with given := s.given ++ [some s.baseLoop] }
      else s.loops[s.next]?.map fun p => { s with
        given := s.given ++ [p]
        next := if s.next + 1 ≥ s.loops.length then 0 else s.next + 1 }
    else none

/-! ## The invariant -/

/-- A thread of the pool: its `startLoop()` has been called once, and has perhaps returned. -/
structure Booted (t : EventLoopThread) : Prop where
  inv : t.Inv
  once : t.owner.inStartLoop = true ∧ t.returned = [] ∨
    t.owner = .idle ∧ ∃ p, t.returned = [p]

/-- The invariant. -/
structure Inv (s : EventLoopThreadPool) : Prop where
  booted : ∀ (k : ℕ) t, s.threads[k]? = some t → Booted t
  /-- `loops_` has what the `startLoop()` of each thread has returned. -/
  loops : ∀ (k : ℕ) p, s.loops[k]? = some p → ∃ t, s.threads[k]? = some t ∧ t.returned = [p]
  length : s.threads.length = s.loops.length + s.pc.pending
  next : s.next = 0 ∨ s.next < s.loops.length
  given : ∀ p ∈ s.given, p = some s.baseLoop ∨
    ∃ (k : ℕ) (t : EventLoopThread), s.threads[k]? = some t ∧ t.returned = [p]

variable {s s' : EventLoopThreadPool} {name : Bytes} {baseLoop : ℕ}

theorem inv_new : (new name baseLoop).Inv where
  booted := fun k t h => by simp [new] at h
  loops := fun k p h => by simp [new] at h
  length := rfl
  next := .inl rfl
  given := fun p hp => absurd hp List.not_mem_nil

/-- A thread that has returned a pointer keeps it. -/
theorem Booted.of_step {t u : EventLoopThread} {a : EventLoopThread.Action} (h : Booted t)
    (hs : t.step a = some u) (hstart : a ≠ .startLoop) (hdestroy : a ≠ .destroy) :
    Booted u ∧ ∀ p, t.returned = [p] → u.returned = [p] := by
  have hinv := h.inv.of_step hs
  rcases EventLoopThread.owner_of_step hs hstart hdestroy (h.once.imp And.left And.left) with
    ⟨ho, hr⟩ | ⟨hin, ho, hr⟩ | ⟨hin, ho, hr⟩
  · exact ⟨⟨hinv, ho ▸ hr ▸ h.once⟩, fun p hp => hr.trans hp⟩
  · rcases h.once with ⟨-, hnil⟩ | ⟨hidle, -⟩
    · exact ⟨⟨hinv, .inl ⟨ho, hr.trans hnil⟩⟩, fun p hp => hr.trans hp⟩
    · rw [hidle] at hin
      cases hin
  · rcases h.once with ⟨-, hnil⟩ | ⟨hidle, -⟩
    · rw [hnil] at hr
      refine ⟨⟨hinv, .inr ⟨ho, t.loop, hr⟩⟩, fun p hp => ?_⟩
      rw [hnil] at hp
      cases hp
    · rw [hidle] at hin
      cases hin

/-- What is found at the place `k` afterwards was found there before. -/
theorem getElem?_set_of {l : List EventLoopThread} {k j : ℕ} {u v : EventLoopThread}
    (h : (l.set k u)[j]? = some v) : j = k ∧ v = u ∨ l[j]? = some v := by
  rw [List.getElem?_set] at h
  split_ifs at h with hk hlt
  · cases h
    exact .inl ⟨hk.symm, rfl⟩
  · exact .inr h

/-- A thread of the pool goes on. -/
theorem Inv.of_thread (h : s.Inv) {k : ℕ} {t u : EventLoopThread} {a : EventLoopThread.Action}
    (ht : s.threads[k]? = some t) (hs : t.step a = some u) (hstart : a ≠ .startLoop)
    (hdestroy : a ≠ .destroy) :
    ({ s with threads := s.threads.set k u } : EventLoopThreadPool).Inv := by
  obtain ⟨hu, hkeep⟩ := (h.booted k t ht).of_step hs hstart hdestroy
  have hfind {j : ℕ} {v : EventLoopThread} {p : Option ℕ} (hj : s.threads[j]? = some v)
      (hp : v.returned = [p]) : ∃ w, (s.threads.set k u)[j]? = some w ∧ w.returned = [p] := by
    by_cases hjk : j = k
    · subst hjk
      cases ht.symm.trans hj
      obtain ⟨hlt, -⟩ := List.getElem?_eq_some_iff.mp ht
      exact ⟨u, by rw [List.getElem?_set_self hlt], hkeep p hp⟩
    · exact ⟨v, by rw [List.getElem?_set_ne (Ne.symm hjk)]; exact hj, hp⟩
  exact
    { h with
      booted := fun j v hv => by
        rcases getElem?_set_of hv with ⟨-, rfl⟩ | hv
        · exact hu
        · exact h.booted j v hv
      loops := fun j p hp => by
        obtain ⟨v, hv, hr⟩ := h.loops j p hp
        exact hfind hv hr
      length := (List.length_set).trans h.length
      given := fun p hp => (h.given p hp).imp_right fun hex => by
        obtain ⟨j, v, hv, hr⟩ := hex
        exact ⟨j, hfind hv hr⟩ }

/-- What is found behind one more thread. -/
theorem getElem?_concat_of {l : List EventLoopThread} {k : ℕ} {u v : EventLoopThread}
    (h : (l ++ [u])[k]? = some v) : v = u ∨ l[k]? = some v := by
  rcases Nat.lt_or_ge k l.length with hk | hk
  · rw [List.getElem?_append_left hk] at h
    exact .inr h
  · rw [List.getElem?_append_right hk, List.getElem?_singleton] at h
    split_ifs at h
    cases h
    exact .inl rfl

/-- A thread that is found stays where it is. -/
theorem getElem?_concat_some {l : List EventLoopThread} {k : ℕ} {u v : EventLoopThread}
    (h : l[k]? = some v) : (l ++ [u])[k]? = some v := by
  obtain ⟨hk, -⟩ := List.getElem?_eq_some_iff.mp h
  rw [List.getElem?_append_left hk]
  exact h

/-- The base thread makes one more thread. -/
theorem Inv.of_push (h : s.Inv) {i : ℕ} {t : EventLoopThread} (hpc : s.pc = .at i)
    (ht : Booted t) :
    ({ s with threads := s.threads ++ [t], pc := .starting i } : EventLoopThreadPool).Inv :=
  { h with
    booted := fun k v hv => by
      rcases getElem?_concat_of hv with rfl | hv
      · exact ht
      · exact h.booted k v hv
    loops := fun k p hp => by
      obtain ⟨v, hv, hr⟩ := h.loops k p hp
      exact ⟨v, getElem?_concat_some hv, hr⟩
    length := by
      have hlength := h.length
      rw [hpc] at hlength
      exact List.length_append.trans (congrArg (· + 1) hlength)
    given := fun p hp => (h.given p hp).imp_right fun hex => by
      obtain ⟨k, v, hv, hr⟩ := hex
      exact ⟨k, v, getElem?_concat_some hv, hr⟩ }

/-- The base thread keeps what `startLoop()` has returned. -/
theorem Inv.of_keep (h : s.Inv) {i : ℕ} {t : EventLoopThread} {p : Option ℕ}
    (hpc : s.pc = .starting i) (ht : s.threads.getLast? = some t) (ho : t.owner = .idle)
    (hp : t.returned.getLast? = some p) :
    ({ s with loops := s.loops ++ [p], pc := .at (i + 1) } : EventLoopThreadPool).Inv := by
  have hlength := h.length
  rw [hpc] at hlength
  have hlast : s.threads[s.loops.length]? = some t := by
    rw [List.getLast?_eq_getElem?, hlength] at ht
    exact ht
  have hreturned : t.returned = [p] := by
    rcases (h.booted _ t hlast).once with ⟨hin, -⟩ | ⟨-, q, hq⟩
    · rw [ho] at hin
      cases hin
    · rw [hq] at hp
      cases hp
      exact hq
  exact
    { h with
      loops := fun k q hq => by
        rcases Nat.lt_or_ge k s.loops.length with hk | hk
        · have hq' : (s.loops ++ [p])[k]? = some q := hq
          rw [List.getElem?_append_left hk] at hq'
          exact h.loops k q hq'
        · have hq' : (s.loops ++ [p])[k]? = some q := hq
          rw [List.getElem?_append_right hk, List.getElem?_singleton] at hq'
          split_ifs at hq' with hz
          cases hq'
          obtain rfl : k = s.loops.length := by omega
          exact ⟨t, hlast, hreturned⟩
      length := by
        have happend : (s.loops ++ [p]).length = s.loops.length + 1 := List.length_append
        exact hlength.trans happend.symm
      next := h.next.imp_right fun hlt => hlt.trans_le (by
        rw [List.length_append]
        exact Nat.le_add_right _ _) }

theorem Inv.of_goOn (h : s.Inv) (hs : s.goOn = some s') : s'.Inv := by
  rw [goOn] at hs
  cases hpc : s.pc <;> rw [hpc] at hs
  case outside => cases hs
  case «at» i =>
    dsimp only at hs
    split_ifs at hs
    · obtain ⟨t, ht, rfl⟩ := Option.map_eq_some_iff.mp hs
      have hinv := EventLoopThread.inv_new.of_step ht
      cases ht
      exact h.of_push hpc ⟨hinv, .inl ⟨rfl, rfl⟩⟩
    · cases hs
      have hlength := h.length
      rw [hpc] at hlength
      exact { h with length := hlength }
  case starting i =>
    obtain ⟨t, ht, hs⟩ := Option.bind_eq_some_iff.mp hs
    obtain ⟨ho, hs⟩ := Option.ite_none_right_eq_some.mp hs
    obtain ⟨p, hp, rfl⟩ := Option.map_eq_some_iff.mp hs
    exact h.of_keep hpc ht ho hp

theorem Inv.of_getNextLoop (h : s.Inv) (hs : s.step .getNextLoop = some s') : s'.Inv := by
  obtain ⟨-, hs⟩ := Option.ite_none_right_eq_some.mp hs
  by_cases hnil : s.loops = []
  · rw [if_pos hnil] at hs
    cases hs
    have hgiven := List.forall_mem_append.mpr
      ⟨h.given, List.forall_mem_singleton.mpr (.inl (Eq.refl (some s.baseLoop)))⟩
    exact { h with given := hgiven }
  · rw [if_neg hnil] at hs
    obtain ⟨p, hp, rfl⟩ := Option.map_eq_some_iff.mp hs
    have hgiven := List.forall_mem_append.mpr
      ⟨h.given, List.forall_mem_singleton.mpr (.inr ⟨s.next, h.loops s.next p hp⟩)⟩
    exact
      { h with
        next := by
          dsimp only
          split_ifs with hge
          · exact .inl rfl
          · exact .inr (not_le.mp hge)
        given := hgiven }

theorem Inv.of_step {a : Action} (h : s.Inv) (hs : s.step a = some s') : s'.Inv := by
  cases a with
  | setThreadNum numThreads =>
    obtain ⟨-, hs⟩ := Option.ite_none_right_eq_some.mp hs
    cases hs
    exact { h with }
  | start =>
    obtain ⟨hpc, hs⟩ := Option.ite_none_right_eq_some.mp hs
    cases hs
    have hlength := h.length
    rw [hpc] at hlength
    exact { h with length := hlength }
  | next => exact h.of_goOn hs
  | thread k a =>
    obtain ⟨⟨hstart, hdestroy⟩, hs⟩ := Option.ite_none_right_eq_some.mp hs
    obtain ⟨t, ht, hs⟩ := Option.bind_eq_some_iff.mp hs
    obtain ⟨u, hu, rfl⟩ := Option.map_eq_some_iff.mp hs
    exact h.of_thread ht hu hstart hdestroy
  | getNextLoop => exact h.of_getNextLoop hs

/-- The invariant of all runs. -/
theorem inv_of_exec {as : List Action} (h : Runs.exec step (new name baseLoop) as = some s) :
    s.Inv :=
  Runs.exec_induction inv_new (fun _ _ _ ht hs => Inv.of_step ht hs) h

/-! ## The loops of the pool -/

/-- The pointer is the loop that the thread has constructed, which is there and in `loop()` unless an
exception has ended it. -/
def Gives (t : EventLoopThread) (p : Option ℕ) : Prop :=
  p = some t.thread.tid ∧ 0 < t.thread.tid ∧
    (t.child = .looping ∧ t.constructed = p ∨ t.child = .left)

theorem Booted.gives {t : EventLoopThread} {p : Option ℕ} (h : Booted t) (hp : t.returned = [p]) :
    Gives t p := by
  obtain ⟨heq, hr⟩ := h.inv.returned p (by rw [hp]; exact List.mem_singleton_self p)
  obtain ⟨hloop, hpos, hplace⟩ := h.inv.loop_of_returns hr
  have hstored : t.child.stored = true := by
    rcases hplace with ⟨hc, -⟩ | hc <;> rw [hc] <;> rfl
  have hp : p = some t.thread.tid := heq.trans ((h.inv.loop hstored).symm.trans hloop)
  exact ⟨hp, hpos, hp ▸ hplace⟩

/-- **The loops of the pool.** In every run: whatever `getNextLoop()` has returned is the base loop or
the loop of a thread of the pool. When the base thread is not in `start()`, `loops_` has one pointer
for each thread, in order, and it is the loop of this thread; and a call of `getNextLoop()` does not
read beside `loops_`. -/
theorem start_gives_loops {as : List Action}
    (h : Runs.exec step (new name baseLoop) as = some s) :
    (∀ p ∈ s.given, p = some s.baseLoop ∨ ∃ t ∈ s.threads, Gives t p) ∧
    (s.pc = .outside → s.loops.length = s.threads.length ∧
      (∀ (k : ℕ) t, s.threads[k]? = some t → ∃ p, s.loops[k]? = some p ∧ Gives t p) ∧
      ∃ s', s.step .getNextLoop = some s') := by
  have hinv := inv_of_exec h
  constructor
  · intro p hp
    refine (hinv.given p hp).imp_right ?_
    rintro ⟨k, t, ht, hr⟩
    exact ⟨t, List.mem_of_getElem? ht, (hinv.booted k t ht).gives hr⟩
  · intro hpc
    have hlength := hinv.length
    rw [hpc] at hlength
    refine ⟨hlength.symm, fun k t ht => ?_, ?_⟩
    · obtain ⟨hk, -⟩ := List.getElem?_eq_some_iff.mp ht
      obtain ⟨p, hp⟩ : ∃ p, s.loops[k]? = some p :=
        ⟨_, List.getElem?_eq_getElem (hk.trans_eq hlength)⟩
      obtain ⟨t', ht', hr⟩ := hinv.loops k p hp
      cases ht.symm.trans ht'
      exact ⟨p, hp, (hinv.booted k t ht).gives hr⟩
    · rw [step, if_pos hpc]
      by_cases hnil : s.loops = []
      · exact ⟨_, if_pos hnil⟩
      · have hnext : s.next < s.loops.length := by
          rcases hinv.next with hz | hlt
          · rw [hz]
            exact List.length_pos_iff.mpr hnil
          · exact hlt
        rw [if_neg hnil, List.getElem?_eq_getElem hnext]
        exact ⟨_, rfl⟩

/-- A pool of one thread, started without a pause of the thread, and asked for a loop. -/
def onePool : List Action :=
  [.setThreadNum 1, .start, .next] ++
    EventLoopThread.oneLoop.tail.map (.thread 0) ++ [.next, .next, .getNextLoop]

/-- The theorem at work: the pool gives the loop of thread 7. -/
theorem start_gives_loops_onePool : ∃ s, Runs.exec step (new [] 1) onePool = some s ∧
    s.loops = [some 7] ∧ s.given = [some 7] ∧
    (some 7 = some s.baseLoop ∨ ∃ t ∈ s.threads, Gives t (some 7)) := by
  have hrun : (Runs.exec step (new [] 1) onePool).map (fun s => (s.loops, s.given)) =
      some ([some 7], [some 7]) := by
    decide +kernel
  obtain ⟨s, hs, heq⟩ := Option.map_eq_some_iff.mp hrun
  obtain ⟨hloops, hgiven⟩ := Prod.mk.inj heq
  have hmem : some 7 ∈ s.given := by
    rw [hgiven]
    exact List.mem_singleton_self _
  exact ⟨s, hs, hloops, hgiven, (start_gives_loops hs).1 _ hmem⟩

/-! ## `start()` returns -/

/-- The base thread is in the `startLoop()` of its last thread. -/
structure Starting (i : ℕ) (numThreads : ℤ) (s : EventLoopThreadPool) : Prop where
  inv : s.Inv
  pc : s.pc = .starting i
  numThreads : s.numThreads = numThreads

/-- The last thread is the one whose `startLoop()` is running. -/
theorem Starting.last {i : ℕ} {n : ℤ} (h : s.Starting i n) {t : EventLoopThread}
    (ht : s.threads.getLast? = some t) : s.threads[s.loops.length]? = some t ∧ Booted t := by
  have hlength := h.inv.length
  rw [h.pc] at hlength
  have hlast : s.threads[s.loops.length]? = some t := by
    rw [List.getLast?_eq_getElem?, hlength] at ht
    exact ht
  exact ⟨hlast, h.inv.booted _ t hlast⟩

/-- The `startLoop()` that the base thread is in never returns. -/
structure Hangs (s : EventLoopThreadPool) : Prop where
  inv : s.Inv
  stuck : ∃ i t, s.pc = .starting i ∧ s.threads.getLast? = some t ∧ t.Stuck

/-- **Nothing helps** the base thread, whatever the other threads do. -/
theorem Hangs.of_step {a : Action} (h : s.Hangs) (hs : s.step a = some s') : s'.Hangs := by
  have hinv := h.inv.of_step hs
  obtain ⟨i, t, hpc, ht, hstuck⟩ := h.stuck
  have hstarting : s.Starting i s.numThreads := ⟨h.inv, hpc, rfl⟩
  obtain ⟨hlast, -⟩ := hstarting.last ht
  cases a with
  | setThreadNum numThreads | start | getNextLoop =>
    obtain ⟨hout, -⟩ := Option.ite_none_right_eq_some.mp hs
    cases hpc.symm.trans hout
  | next =>
    rw [step, goOn, hpc] at hs
    dsimp only at hs
    rw [ht, Option.bind_some] at hs
    obtain ⟨ho, -⟩ := Option.ite_none_right_eq_some.mp hs
    have hin := hstuck.owner
    rw [ho] at hin
    cases hin
  | thread k a =>
    obtain ⟨-, hs⟩ := Option.ite_none_right_eq_some.mp hs
    obtain ⟨v, hv, hs⟩ := Option.bind_eq_some_iff.mp hs
    obtain ⟨u, hu, rfl⟩ := Option.map_eq_some_iff.mp hs
    have hlength := h.inv.length
    rw [hpc] at hlength
    have hgetLast : (s.threads.set k u).getLast? = (s.threads.set k u)[s.loops.length]? := by
      rw [List.getLast?_eq_getElem?, List.length_set, hlength]
      rfl
    by_cases hk : k = s.loops.length
    · subst hk
      cases hlast.symm.trans hv
      refine ⟨hinv, i, u, hpc, ?_, hstuck.of_step hu⟩
      rw [hgetLast]
      exact List.getElem?_set_self (by rw [hlength]; exact Nat.lt_succ_self _)
    · refine ⟨hinv, i, t, hpc, ?_, hstuck⟩
      rw [hgetLast, List.getElem?_set_ne hk]
      exact hlast

end EventLoopThreadPool

end Net

end Muduo
