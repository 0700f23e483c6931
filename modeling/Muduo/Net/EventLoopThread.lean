import Muduo.Base.Thread

/-! # `EventLoopThread`

`startLoop()`, `loop()` and the beginning of the destructor of `muduo/net/EventLoopThread.cc`. The
owner starts `thread_` and waits for `latch_`; the child constructs its `EventLoop`, stores a pointer
to it in `loop_` and counts `latch_` down before it runs the loop. The steps of `thread_` are those of
`Thread`, which has a latch of its own. An `EventLoop` is named by its `threadId_`.

* **`EventLoopThread.startLoop_returns_loop`**: what `startLoop()` returns, and what the destructor
  uses, is the loop of the child;
* **`EventLoopThread.latch_wait_returns`**: `startLoop()` and the destructor come out of their
  `latch_.wait()` if and only if `pthread_create` has made the child. -/

namespace Muduo

namespace Net

namespace EventLoopThread

/-- Where the owner is. `latch_.wait()` is called in `startLoop()` or in the destructor. -/
inductive OwnerPc
  /-- In none of the member functions. -/
  | idle
  /-- In `startLoop()`, in `thread_.start()`. -/
  | starting
  /-- At the call of `latch_.wait()`. -/
  | called (inDestructor : Bool)
  /-- In `latch_.wait()`. -/
  | waiting (inDestructor : Bool)
  /-- In the destructor, at `loop_->quit()`. -/
  | quitting
deriving DecidableEq, Repr

/-- Where the child is in `EventLoopThread::loop()`. -/
inductive ChildPc
  /-- It has not called it. -/
  | outside
  /-- At `EventLoop loop`. -/
  | constructing
  /-- At `loop_=&loop`. -/
  | storing
  /-- At the call of `latch_.countDown()`. -/
  | calling
  /-- In `latch_.countDown()`. -/
  | counting
  /-- In `loop.loop()`. -/
  | looping
  /-- `loop.loop()` has been left, and the `EventLoop` is destructed. -/
  | left
deriving DecidableEq, Repr

/-- The owner is in `latch_.wait()`. -/
def OwnerPc.waits : OwnerPc → Bool
  | waiting _ => true
  | _ => false

/-- The owner is at or in `latch_.wait()`. -/
def OwnerPc.inLatch : OwnerPc → Bool
  | called _ | waiting _ => true
  | _ => false

/-- The owner is in `startLoop()`. -/
def OwnerPc.inStartLoop : OwnerPc → Bool
  | starting | called false | waiting false => true
  | _ => false

/-- The child is in `EventLoopThread::loop()`. -/
def ChildPc.inLoop : ChildPc → Bool
  | outside | left => false
  | _ => true

/-- The `EventLoop` of the child is there. -/
def ChildPc.hasLoop : ChildPc → Bool
  | storing | calling | counting | looping => true
  | _ => false

/-- `loop_` has been set. -/
def ChildPc.stored : ChildPc → Bool
  | calling | counting | looping | left => true
  | _ => false

/-- The child has called `countDown()`. -/
def ChildPc.called : ChildPc → Bool
  | counting | looping | left => true
  | _ => false

end EventLoopThread

open EventLoopThread in
/-- `EventLoopThread`, with its owner and the child. -/
structure EventLoopThread where
  /-- `thread_`. -/
  thread : Thread
  /-- `latch_`. -/
  latch : CountDownLatch Party
  /-- `loop_`. -/
  loop : Option ℕ
  owner : OwnerPc
  child : ChildPc
  /-- The `EventLoop` that the child has constructed. -/
  constructed : Option ℕ
  /-- What `startLoop()` has returned. -/
  returned : List (Option ℕ)

namespace EventLoopThread

/-- `EventLoopThread(name)`. -/
def new (name : Bytes) : EventLoopThread where
  thread := .new name
  latch := .new 1
  loop := none
  owner := .idle
  child := .outside
  constructed := none
  returned := []

/-- What can happen. -/
inductive Action
  /-- The owner calls `startLoop()`, which calls `thread_.start()`. -/
  | startLoop
  /-- The owner goes on in `thread_.start()`, or the child up to the call of `loop()`. -/
  | thread (a : Thread.Action)
  /-- The owner goes on behind `thread_.start()`. -/
  | ownerNext
  /-- `cond_.wait()` in `latch_.wait()` returns for no reason. -/
  | spurious
  /-- The child goes on in `EventLoopThread::loop()`, up to `loop.loop()`. -/
  | childNext
  /-- `loop.loop()` is left. -/
  | leave (o : Thread.Outcome)
  /-- The owner calls `~EventLoopThread()`. -/
  | destroy
deriving DecidableEq, Repr

/-- `thread_` is now `t`: `start()` may have returned, and `func_()` may have been called. -/
def setThread (s : EventLoopThread) (t : Thread) : EventLoopThread :=
  { s with
    thread := t
    owner := if s.owner = .starting ∧ t.owner = .idle then .called false else s.owner
    child := if s.child = .outside ∧ t.child = .running then .constructing else s.child }

/-- The owner goes on. -/
def ownerNext (s : EventLoopThread) : Option EventLoopThread :=
  match s.owner with
  | .called d => (s.latch.step (.wait .owner)).map fun l => { s with latch := l, owner := .waiting d }
  | .waiting d => (s.latch.step (.next .owner)).map fun l =>
    if l.pc .owner = .outside then
      if d then { s with latch := l, owner := .quitting }
      else { s with latch := l, owner := .idle, returned := s.returned ++ [s.loop] }
    else { s with latch := l }
  | _ => none

/-- The child goes on. -/
def childNext (s : EventLoopThread) : Option EventLoopThread :=
  match s.child with
  | .constructing => some { s with constructed := some s.thread.childTid, child := .storing }
  | .storing => some { s with loop := s.constructed, child := .calling }
  | .calling => (s.latch.step (.countDown .child)).map fun l =>
    { s with latch := l, child := .counting }
  | .counting => (s.latch.step (.next .child)).map fun l =>
    { s with latch := l, child := if l.pc .child = .outside then .looping else .counting }
  | _ => none

/-- One action. -/
def step (s : EventLoopThread) : Action → Option EventLoopThread
  | .startLoop =>
    if s.owner = .idle then
      (s.thread.step .start).map fun t => { s with thread := t, owner := .starting }
    else none
  | .thread a => if a.isStarting then (s.thread.step a).map s.setThread else none
  | .ownerNext => s.ownerNext
  | .spurious => (s.latch.step (.spurious .owner)).map fun l => { s with latch := l }
  | .childNext => s.childNext
  | .leave o =>
    if s.child = .looping then
      (s.thread.step (.finish o)).map fun t =>
        { s with thread := t, child := .left, constructed := none }
    else none
  | .destroy => if s.owner = .idle then some { s with owner := .called true } else none

/-! ## The invariant -/

/-- The invariant. -/
structure Inv (s : EventLoopThread) : Prop where
  thread : s.thread.Inv
  latch : Handshake s.latch s.owner.waits (s.child == .counting) s.child.called
  starting : s.owner = .starting ↔ s.thread.owner.inStart = true
  idle : s.owner ≠ .starting → s.thread.owner = .idle
  running : s.thread.child = .running ↔ s.child.inLoop = true
  ended : s.thread.child = .ended ↔ s.child = .left
  constructed : s.child.hasLoop = true → s.constructed = some s.thread.childTid
  loop : s.child.stored = true → s.loop = some s.thread.childTid
  returned : ∀ p ∈ s.returned, p = some s.thread.childTid ∧ 0 < s.latch.returns
  quitting : s.owner = .quitting → 0 < s.latch.returns

variable {s t : EventLoopThread} {name : Bytes}

theorem inv_new : (new name).Inv where
  thread := Thread.inv_new
  latch := .new
  starting := iff_of_false OwnerPc.noConfusion Bool.false_ne_true
  idle := fun _ => rfl
  running := iff_of_false Thread.ChildPc.noConfusion Bool.false_ne_true
  ended := iff_of_false Thread.ChildPc.noConfusion ChildPc.noConfusion
  constructed := fun h => by cases h
  loop := fun h => by cases h
  returned := fun _ hp => absurd hp List.not_mem_nil
  quitting := fun h => by cases h

/-- **When `latch_.wait()` has returned, the child is behind `countDown()`.** -/
theorem Inv.past (h : s.Inv) (hr : 0 < s.latch.returns) : s.child = .looping ∨ s.child = .left := by
  obtain ⟨hcalled, hcounting⟩ := h.latch.past hr
  cases hc : s.child <;> rw [hc] at hcalled hcounting
  case looping => exact .inl rfl
  case left => exact .inr rfl
  case counting => cases hcounting
  all_goals cases hcalled

theorem Inv.latch_owner (h : s.Inv) {o : OwnerPc} (ho : s.owner = o) :
    Handshake s.latch o.waits (s.child == .counting) s.child.called :=
  ho ▸ h.latch

theorem Inv.latch_child (h : s.Inv) {c : ChildPc} (hc : s.child = c) :
    Handshake s.latch s.owner.waits (c == .counting) c.called :=
  hc ▸ h.latch

/-! ## What a step preserves -/

theorem Inv.of_startLoop (h : s.Inv) {th : Thread} (ho : s.owner = .idle)
    (hth : s.thread.step .start = some th) :
    ({ s with thread := th, owner := .starting } : EventLoopThread).Inv := by
  have hinv := h.thread.of_step hth
  obtain ⟨-, hth⟩ := Option.ite_none_right_eq_some.mp hth
  cases hth
  exact
    { h with
      thread := hinv
      latch := (h.latch_owner ho :)
      starting := iff_of_true rfl rfl
      idle := fun hne => absurd rfl hne
      quitting := fun heq => by cases heq }

/-- Where the owner is after a step in `thread_.start()`. -/
theorem Inv.owner_of_thread (h : s.Inv) {a : Thread.Action} {th : Thread}
    (ha : a.isStarting = true) (hth : s.thread.step a = some th) :
    ((s.setThread th).owner = .starting ↔ th.owner.inStart = true) ∧
      ((s.setThread th).owner ≠ .starting → th.owner = .idle) := by
  show ((if s.owner = .starting ∧ th.owner = .idle then OwnerPc.called false else s.owner) =
      .starting ↔ _) ∧ ((if s.owner = .starting ∧ th.owner = .idle then OwnerPc.called false
        else s.owner) ≠ .starting → _)
  have hnot : th.owner = .idle → th.owner.inStart ≠ true := by
    intro hidle
    rw [hidle]
    exact Bool.false_ne_true
  rcases Thread.owner_of_starting ha hth with heq | ⟨hin, hth' | hth'⟩
  · -- a step of the child
    by_cases ho : s.owner = .starting
    · have hin : th.owner.inStart = true := heq ▸ h.starting.mp ho
      rw [if_neg fun hand => hnot hand.2 hin]
      exact ⟨iff_of_true ho hin, fun hne => absurd ho hne⟩
    · have hidle : th.owner = .idle := heq ▸ h.idle ho
      rw [if_neg fun hand => ho hand.1]
      exact ⟨iff_of_false ho (hnot hidle), fun _ => hidle⟩
  · -- the owner is still in `start()`
    have ho := h.starting.mpr hin
    rw [if_neg fun hand => hnot hand.2 hth']
    exact ⟨iff_of_true ho hth', fun hne => absurd ho hne⟩
  · -- `start()` returns
    rw [if_pos ⟨h.starting.mpr hin, hth'⟩]
    exact ⟨iff_of_false OwnerPc.noConfusion (hnot hth'), fun _ => hth'⟩

/-- The latch does not see the steps in `thread_.start()`. -/
theorem setThread_owner {th : Thread} :
    (s.setThread th).owner.waits = s.owner.waits ∧
      ((s.setThread th).owner = .quitting → s.owner = .quitting) := by
  show (if s.owner = .starting ∧ th.owner = .idle then OwnerPc.called false else s.owner).waits = _ ∧
    ((if s.owner = .starting ∧ th.owner = .idle then OwnerPc.called false else s.owner) = _ → _)
  split_ifs with hif
  · rw [hif.1]
    exact ⟨rfl, fun heq => by cases heq⟩
  · exact ⟨rfl, id⟩

/-- The child has not called `EventLoopThread::loop()`, and perhaps calls it. -/
theorem Inv.of_thread_outside (h : s.Inv) {a : Thread.Action} {th : Thread}
    (ha : a.isStarting = true) (hth : s.thread.step a = some th) (hc : s.child = .outside) :
    (s.setThread th).Inv := by
  obtain ⟨hstarting, hidle⟩ := h.owner_of_thread ha hth
  obtain ⟨hwaits, hquitting⟩ := @setThread_owner s th
  have hended : th.child ≠ .ended := by
    refine (h.thread.child_of_starting ha hth).2.1 fun hended => ?_
    rw [h.ended, hc] at hended
    cases hended
  have hchild : (s.setThread th).child =
      if th.child = .running then .constructing else .outside := by
    rw [setThread, hc]
    exact ite_congr (propext (and_iff_right rfl)) (fun _ => rfl) fun _ => rfl
  have hplace : ((s.setThread th).child == .counting) = false ∧
      (s.setThread th).child.called = false ∧ (s.setThread th).child.hasLoop = false ∧
      (s.setThread th).child.stored = false ∧ (s.setThread th).child ≠ .left := by
    rw [hchild]
    split_ifs <;> exact ⟨rfl, rfl, rfl, rfl, ChildPc.noConfusion⟩
  obtain ⟨hcounting, hcalled, hloop, hstored, hleft⟩ := hplace
  have hlatch := h.latch_child hc
  have hreturns : ¬0 < s.latch.returns := by
    intro hr
    rcases h.past hr with hf | hf <;> cases hc.symm.trans hf
  exact
    { thread := h.thread.of_step hth
      latch := by
        rw [hwaits, hcounting, hcalled]
        exact hlatch
      starting := hstarting
      idle := hidle
      running := by
        rw [hchild]
        split_ifs with hrun
        · exact iff_of_true hrun rfl
        · exact iff_of_false hrun Bool.false_ne_true
      ended := iff_of_false hended hleft
      constructed := fun hf => absurd (hloop.symm.trans hf) Bool.false_ne_true
      loop := fun hf => absurd (hstored.symm.trans hf) Bool.false_ne_true
      returned := fun p hp => absurd (h.returned p hp).2 hreturns
      quitting := fun hq => absurd (h.quitting (hquitting hq)) hreturns }

/-- A step in `thread_.start()`, or of the child on its way to `func_()`. -/
theorem Inv.of_thread (h : s.Inv) {a : Thread.Action} {th : Thread} (ha : a.isStarting = true)
    (hth : s.thread.step a = some th) : (s.setThread th).Inv := by
  by_cases hc : s.child = .outside
  · exact h.of_thread_outside ha hth hc
  · obtain ⟨hstarting, hidle⟩ := h.owner_of_thread ha hth
    obtain ⟨hwaits, hquitting⟩ := @setThread_owner s th
    have hchild : (s.setThread th).child = s.child := if_neg fun hand => hc hand.1
    have hin : s.thread.child = .running ∨ s.thread.child = .ended := by
      rw [h.running, h.ended]
      cases hpc : s.child
      case outside => exact absurd hpc hc
      case left => exact .inr rfl
      all_goals exact .inl rfl
    obtain ⟨hkeep, htid⟩ := (h.thread.child_of_starting ha hth).1 hin
    exact
      { thread := h.thread.of_step hth
        latch := by
          rw [hwaits, hchild]
          exact h.latch
        starting := hstarting
        idle := hidle
        running := by
          rw [hchild]
          exact hkeep ▸ h.running
        ended := by
          rw [hchild]
          exact hkeep ▸ h.ended
        constructed := fun hl => by
          rw [hchild] at hl
          exact (h.constructed hl).trans (congrArg some htid.symm)
        loop := fun hl => by
          rw [hchild] at hl
          exact (h.loop hl).trans (congrArg some htid.symm)
        returned := fun p hp =>
          ⟨(h.returned p hp).1.trans (congrArg some htid.symm), (h.returned p hp).2⟩
        quitting := fun hq => h.quitting (hquitting hq) }

theorem Inv.of_ownerNext (h : s.Inv) (hs : s.ownerNext = some t) : t.Inv := by
  have hstarting {o p : OwnerPc} (ho : s.owner = o) (hne : o ≠ .starting) (hne' : p ≠ .starting) :
      (p = .starting ↔ s.thread.owner.inStart = true) ∧ s.thread.owner = .idle :=
    ⟨(iff_of_false hne' (ho ▸ hne)).trans h.starting, h.idle (ho ▸ hne)⟩
  cases ho : s.owner <;> rw [ownerNext, ho] at hs
  case called d =>
    have hlatch := h.latch_owner ho
    obtain ⟨l, hl, rfl⟩ := Option.map_eq_some_iff.mp hs
    cases hlatch.step_wait.symm.trans hl
    obtain ⟨hst, hidle⟩ := hstarting ho OwnerPc.noConfusion (p := .waiting d) OwnerPc.noConfusion
    exact
      { h with
        latch := hlatch.callWait
        starting := hst
        idle := fun _ => hidle
        returned := h.returned
        quitting := fun heq => by cases heq }
  case waiting d =>
    obtain ⟨l, hl, rfl⟩ := Option.map_eq_some_iff.mp hs
    obtain ⟨hlatch, hreturned⟩ := (h.latch_owner ho).waitNext hl
    have hle : s.latch.returns ≤ l.returns := by
      rw [CountDownLatch.returns_of_next hl]
      split_ifs <;> omega
    have hold : ∀ p ∈ s.returned, p = some s.thread.childTid ∧ 0 < l.returns :=
      fun p hp => ⟨(h.returned p hp).1, (h.returned p hp).2.trans_le hle⟩
    by_cases hout : l.pc .owner = .outside
    · rw [hout] at hlatch
      have hr := hreturned hout
      have hcalled := (hlatch.past hr).1
      have hstored : s.child.stored = true := by
        cases hc : s.child <;> rw [hc] at hcalled <;> first | rfl | cases hcalled
      rw [if_pos hout]
      cases d with
      | true =>
        obtain ⟨hst, hidle⟩ := hstarting ho OwnerPc.noConfusion (p := .quitting)
          OwnerPc.noConfusion
        exact
          { h with
            latch := hlatch
            starting := hst
            idle := fun _ => hidle
            returned := hold
            quitting := fun _ => hr }
      | false =>
        obtain ⟨hst, hidle⟩ := hstarting ho OwnerPc.noConfusion (p := .idle) OwnerPc.noConfusion
        exact
          { h with
            latch := hlatch
            starting := hst
            idle := fun _ => hidle
            returned := List.forall_mem_append.mpr
              ⟨hold, List.forall_mem_singleton.mpr ⟨h.loop hstored, hr⟩⟩
            quitting := fun heq => by cases heq }
    · rw [bne_iff_ne.mpr hout] at hlatch
      rw [if_neg hout]
      obtain ⟨hst, hidle⟩ := hstarting ho OwnerPc.noConfusion (p := .waiting d) OwnerPc.noConfusion
      exact
        { h with
          latch := hlatch
          starting := hst
          idle := fun _ => hidle
          returned := hold
          quitting := fun heq => by cases heq }
  all_goals cases hs

/-- The child goes on in `EventLoopThread::loop()`. -/
theorem Inv.moveChild (h : s.Inv) {l : CountDownLatch Party} {c : ChildPc} {k p : Option ℕ}
    (hlatch : Handshake l s.owner.waits (c == .counting) c.called)
    (hreturns : s.latch.returns ≤ l.returns) (hin : s.child.inLoop = true) (hc : c.inLoop = true)
    (hk : c.hasLoop = true → k = some s.thread.childTid)
    (hp : c.stored = true → p = some s.thread.childTid) :
    ({ s with latch := l, child := c, constructed := k, loop := p } : EventLoopThread).Inv :=
  { h with
    latch := hlatch
    running := h.running.trans (iff_of_true hin hc)
    ended := by
      refine h.ended.trans (iff_of_false ?_ ?_)
      · intro heq
        rw [heq] at hin
        cases hin
      · rintro rfl
        cases hc
    constructed := hk
    loop := hp
    returned := fun q hq => ⟨(h.returned q hq).1, (h.returned q hq).2.trans_le hreturns⟩
    quitting := fun hq => (h.quitting hq).trans_le hreturns }

theorem Inv.of_childNext (h : s.Inv) (hs : s.childNext = some t) : t.Inv := by
  cases hc : s.child <;> rw [childNext, hc] at hs
  case constructing =>
    cases hs
    exact h.moveChild (h.latch_child hc :) le_rfl (by rw [hc]; rfl) rfl (fun _ => rfl)
      (fun hf => by cases hf)
  case storing =>
    cases hs
    have hk := h.constructed (by rw [hc]; rfl)
    exact h.moveChild (h.latch_child hc :) le_rfl (by rw [hc]; rfl) rfl (fun _ => hk) fun _ => hk
  case calling =>
    have hlatch := h.latch_child hc
    obtain ⟨l, hl, rfl⟩ := Option.map_eq_some_iff.mp hs
    cases hlatch.step_countDown.symm.trans hl
    exact h.moveChild hlatch.callCountDown le_rfl (by rw [hc]; rfl) rfl
      (fun _ => h.constructed (by rw [hc]; rfl)) fun _ => h.loop (by rw [hc]; rfl)
  case counting =>
    obtain ⟨l, hl, rfl⟩ := Option.map_eq_some_iff.mp hs
    obtain ⟨hlatch, hreturns⟩ := (h.latch_child hc).countNext hl
    have hk := h.constructed (by rw [hc]; rfl)
    have hp := h.loop (by rw [hc]; rfl)
    by_cases hout : l.pc .child = .outside
    · rw [hout] at hlatch
      rw [if_pos hout]
      exact h.moveChild hlatch hreturns (by rw [hc]; rfl) rfl (fun _ => hk) fun _ => hp
    · rw [bne_iff_ne.mpr hout] at hlatch
      rw [if_neg hout]
      exact h.moveChild hlatch hreturns (by rw [hc]; rfl) rfl (fun _ => hk) fun _ => hp
  all_goals cases hs

theorem Inv.of_step {a : Action} (h : s.Inv) (hs : s.step a = some t) : t.Inv := by
  cases a with
  | startLoop =>
    obtain ⟨ho, hs⟩ := Option.ite_none_right_eq_some.mp hs
    obtain ⟨th, hth, rfl⟩ := Option.map_eq_some_iff.mp hs
    exact h.of_startLoop ho hth
  | thread a =>
    obtain ⟨ha, hs⟩ := Option.ite_none_right_eq_some.mp hs
    obtain ⟨th, hth, rfl⟩ := Option.map_eq_some_iff.mp hs
    exact h.of_thread ha hth
  | ownerNext => exact h.of_ownerNext hs
  | spurious =>
    obtain ⟨l, hl, rfl⟩ := Option.map_eq_some_iff.mp hs
    obtain ⟨hlatch, hreturns⟩ := h.latch.spurious hl
    exact
      { h with
        latch := hlatch
        returned := fun p hp => hreturns.symm ▸ h.returned p hp
        quitting := fun hq => hreturns.symm ▸ h.quitting hq }
  | childNext => exact h.of_childNext hs
  | leave o =>
    obtain ⟨hc, hs⟩ := Option.ite_none_right_eq_some.mp hs
    obtain ⟨th, hth, rfl⟩ := Option.map_eq_some_iff.mp hs
    have hinv := h.thread.of_step hth
    obtain ⟨-, hth⟩ := Option.ite_none_right_eq_some.mp hth
    cases hth
    exact
      { h with
        thread := hinv
        latch := (h.latch_child hc :)
        running := iff_of_false Thread.ChildPc.noConfusion Bool.false_ne_true
        ended := iff_of_true rfl rfl
        constructed := fun hf => by cases hf
        loop := fun _ => h.loop (by rw [hc]; rfl) }
  | destroy =>
    obtain ⟨ho, hs⟩ := Option.ite_none_right_eq_some.mp hs
    cases hs
    have hne : s.owner ≠ .starting := ho ▸ OwnerPc.noConfusion
    exact
      { h with
        latch := (h.latch_owner ho :)
        starting := (iff_of_false OwnerPc.noConfusion hne).trans h.starting
        idle := fun _ => h.idle hne
        quitting := fun heq => by cases heq }

/-- The invariant of all runs. -/
theorem inv_of_exec {as : List Action} (h : Runs.exec step (new name) as = some s) : s.Inv :=
  Runs.exec_induction inv_new (fun _ _ _ ht hs => Inv.of_step ht hs) h

/-- An owner that does not call anything goes on in `startLoop()` or returns from it, or it does
not come to its end. -/
theorem owner_of_step {a : Action} (hs : s.step a = some t) (hstart : a ≠ .startLoop)
    (hdestroy : a ≠ .destroy) (ho : s.owner.inStartLoop = true ∨ s.owner = .idle) :
    t.owner = s.owner ∧ t.returned = s.returned ∨
      s.owner.inStartLoop = true ∧ t.owner.inStartLoop = true ∧ t.returned = s.returned ∨
      s.owner.inStartLoop = true ∧ t.owner = .idle ∧ t.returned = s.returned ++ [s.loop] := by
  cases a with
  | startLoop => exact absurd rfl hstart
  | destroy => exact absurd rfl hdestroy
  | thread a =>
    obtain ⟨-, hs⟩ := Option.ite_none_right_eq_some.mp hs
    obtain ⟨th, -, rfl⟩ := Option.map_eq_some_iff.mp hs
    by_cases hif : s.owner = .starting ∧ th.owner = .idle
    · exact .inr (.inl ⟨by rw [hif.1]; rfl, congrArg OwnerPc.inStartLoop (if_pos hif), rfl⟩)
    · exact .inl ⟨if_neg hif, rfl⟩
  | ownerNext =>
    cases hpc : s.owner <;> rw [step, ownerNext, hpc] at hs <;> rw [hpc] at ho
    case called d =>
      obtain ⟨l, -, rfl⟩ := Option.map_eq_some_iff.mp hs
      cases d with
      | false => exact .inr (.inl ⟨rfl, rfl, rfl⟩)
      | true => rcases ho with ho | ho <;> cases ho
    case waiting d =>
      obtain ⟨l, -, rfl⟩ := Option.map_eq_some_iff.mp hs
      cases d with
      | false =>
        by_cases hout : l.pc .owner = .outside
        · rw [if_pos hout]
          exact .inr (.inr ⟨rfl, rfl, rfl⟩)
        · rw [if_neg hout]
          exact .inl ⟨rfl, rfl⟩
      | true => rcases ho with ho | ho <;> cases ho
    all_goals cases hs
  | spurious =>
    obtain ⟨l, -, rfl⟩ := Option.map_eq_some_iff.mp hs
    exact .inl ⟨rfl, rfl⟩
  | childNext =>
    cases hc : s.child <;> rw [step, childNext, hc] at hs
    case calling | counting =>
      obtain ⟨l, -, rfl⟩ := Option.map_eq_some_iff.mp hs
      exact .inl ⟨rfl, rfl⟩
    case constructing | storing =>
      cases hs
      exact .inl ⟨rfl, rfl⟩
    all_goals cases hs
  | leave o =>
    obtain ⟨-, hs⟩ := Option.ite_none_right_eq_some.mp hs
    obtain ⟨th, -, rfl⟩ := Option.map_eq_some_iff.mp hs
    exact .inl ⟨rfl, rfl⟩

/-! ## What comes out of `latch_.wait()` -/

/-- A child in `EventLoopThread::loop()`, or behind it, has stored its id in `thread_`. -/
theorem Inv.tid (h : s.Inv) (hc : s.child ≠ .outside) :
    s.thread.tid = s.thread.childTid ∧ 0 < s.thread.tid := by
  have hin : s.thread.child = .running ∨ s.thread.child = .ended := by
    rw [h.running, h.ended]
    cases hpc : s.child
    case outside => exact absurd hpc hc
    case left => exact .inr rfl
    all_goals exact .inl rfl
  have hstored : s.thread.child.stored = true ∧ s.thread.child ≠ .absent := by
    rcases hin with hin | hin <;> rw [hin] <;> exact ⟨rfl, Thread.ChildPc.noConfusion⟩
  have htid := h.thread.tid hstored.1
  exact ⟨htid, htid ▸ h.thread.childTid hstored.2⟩

/-- Behind `latch_.wait()` the pointer is the loop of the child. -/
theorem Inv.loop_of_returns (h : s.Inv) (hr : 0 < s.latch.returns) :
    s.loop = some s.thread.tid ∧ 0 < s.thread.tid ∧
      (s.child = .looping ∧ s.constructed = some s.thread.tid ∨ s.child = .left) := by
  have hne : s.child ≠ .outside := by
    rintro hc
    rcases h.past hr with hf | hf <;> cases hc.symm.trans hf
  obtain ⟨htid, hpos⟩ := h.tid hne
  rw [htid]
  rcases h.past hr with hc | hc
  · exact ⟨h.loop (by rw [hc]; rfl), htid ▸ hpos, .inl ⟨hc, h.constructed (by rw [hc]; rfl)⟩⟩
  · exact ⟨h.loop (by rw [hc]; rfl), htid ▸ hpos, .inr hc⟩

/-- **What `startLoop()` returns.** In every run, whatever `startLoop()` has returned is the
`EventLoop` that the child has constructed: its `threadId_` is the id of the thread that `thread_` has
started, and it is there and in `loop()` unless an exception has ended it. The destructor comes to
`loop_->quit()` with the same pointer. -/
theorem startLoop_returns_loop {as : List Action} (h : Runs.exec step (new name) as = some s) :
    (∀ p ∈ s.returned, p = some s.thread.tid ∧ 0 < s.thread.tid ∧
      (s.child = .looping ∧ s.constructed = p ∨ s.child = .left)) ∧
    (s.owner = .quitting → s.loop = some s.thread.tid ∧ 0 < s.thread.tid ∧
      (s.child = .looping ∧ s.constructed = s.loop ∨ s.child = .left)) := by
  have hinv := inv_of_exec h
  constructor
  · intro p hp
    obtain ⟨heq, hr⟩ := hinv.returned p hp
    obtain ⟨-, hpos, hplace⟩ := hinv.loop_of_returns hr
    have hp : p = some s.thread.tid := by
      rw [heq, (hinv.tid _).1]
      rintro hc
      rcases hplace with ⟨hf, -⟩ | hf <;> cases hc.symm.trans hf
    exact ⟨hp, hpos, hp ▸ hplace⟩
  · intro ho
    obtain ⟨heq, hpos, hplace⟩ := hinv.loop_of_returns (hinv.quitting ho)
    exact ⟨heq, hpos, heq ▸ hplace⟩

/-- `startLoop()` without a pause of the child. -/
def oneLoop : List Action :=
  [.startLoop, .thread (.create 7), .thread .ownerNext] ++
    List.replicate 7 (.thread .childNext) ++ List.replicate 4 (.thread .ownerNext) ++
    List.replicate 7 .childNext ++ List.replicate 4 .ownerNext

/-- The theorem at work: it returns the loop of thread 7. -/
theorem startLoop_returns_loop_oneLoop : ∃ s, Runs.exec step (new []) oneLoop = some s ∧
    s.returned = [some 7] ∧ s.thread.tid = 7 := by
  have hrun : (Runs.exec step (new []) oneLoop).map returned = some [some 7] := by
    decide +kernel
  obtain ⟨s, hs, hreturned⟩ := Option.map_eq_some_iff.mp hrun
  have hloop := (startLoop_returns_loop hs).1 (some 7)
    (by rw [hreturned]; exact List.mem_singleton_self _)
  exact ⟨s, hs, hreturned, (Option.some.inj hloop.1).symm⟩

/-! ## `latch_.wait()` returns -/

/-- The action lets the owner or the child go on. -/
def Action.IsNext (a : Action) : Prop :=
  a = .thread .ownerNext ∨ a = .thread .childNext ∨ a = .ownerNext ∨ a = .childNext

/-- The owner is at `latch_.wait()`, and there is a child. -/
structure AtLatch (s : EventLoopThread) : Prop where
  inv : s.Inv
  owner : s.owner.inLatch = true
  child : s.thread.child ≠ .absent

/-- **First `thread_.start()` returns.** -/
theorem Inv.can_startThread (h : s.Inv) (ho : s.owner = .starting) (hc : s.thread.child ≠ .absent) :
    Runs.Can step Action.IsNext AtLatch s := by
  refine Runs.Can.lift
    (R := fun s th => s.Inv ∧ s.owner = .starting ∧ s.thread = th ∧ th.child ≠ .absent)
    (h.thread.can_start (h.starting.mp ho) hc) ⟨h, ho, rfl, hc⟩ ?_ ?_
  · rintro s _ a th' ⟨h, ho, rfl, hc⟩ ha hth
    have hstarting : a.isStarting = true := by
      rcases ha with rfl | rfl <;> rfl
    have hs : s.step (.thread a) = some (s.setThread th') := by
      rw [step, if_pos hstarting, hth]
      rfl
    have hinv := h.of_step hs
    have hc' := (h.thread.child_of_starting hstarting hth).2.2 hc
    refine ⟨.thread a, _, by rcases ha with rfl | rfl <;> simp [Action.IsNext], hs, ?_⟩
    by_cases hidle : th'.owner = .idle
    · have hcalled : (s.setThread th').owner = .called false := if_pos ⟨ho, hidle⟩
      exact .inl ⟨hinv, by rw [hcalled]; rfl, hc'⟩
    · exact .inr ⟨hinv, (if_neg fun hand => hidle hand.2).trans ho, rfl, hc'⟩
  · -- in `start()` the owner of `thread_` is not idle
    rintro s _ ⟨h, ho, rfl, -⟩ ⟨hidle, -⟩
    have hin := h.starting.mp ho
    rw [hidle] at hin
    cases hin

/-- The owner calls `latch_.wait()`. -/
theorem AtLatch.can_wait (h : s.AtLatch) :
    Runs.Can step Action.IsNext (fun s => s.AtLatch ∧ s.owner.waits = true) s := by
  cases ho : s.owner with
  | waiting d => exact Runs.can_of_now ⟨h, by rw [ho]; rfl⟩
  | called d =>
    have hs : s.step .ownerNext = some { s with
        latch := s.latch.setPc .owner .waitLock, owner := .waiting d } := by
      rw [step, ownerNext, ho]
      dsimp only
      rw [(h.inv.latch_owner ho).step_wait]
      rfl
    exact Runs.can_of_step (.inr (.inr (.inl rfl))) hs ⟨⟨h.inv.of_step hs, rfl, h.child⟩, rfl⟩
  | idle | starting | quitting =>
    have hin := h.owner
    rw [ho] at hin
    cases hin

/-- The steps that the child has left up to `countDown()`. -/
def ChildPc.rank : ChildPc → ℕ
  | outside => 4
  | constructing => 3
  | storing => 2
  | calling => 1
  | _ => 0

/-- Behind `thread_.start()` a child that has not called `EventLoopThread::loop()` is about to. -/
theorem AtLatch.naming (h : s.AtLatch) (hc : s.child = .outside) : s.thread.child = .naming := by
  have ho : s.owner ≠ .starting := by
    intro ho
    have hin := h.owner
    rw [ho] at hin
    cases hin
  have hstarted : s.thread.started = true := by
    rw [← Bool.not_eq_false]
    exact fun hf => h.child (h.inv.thread.child.mpr (.inl hf))
  have hpast := h.inv.thread.past hstarted (by rw [h.inv.idle ho]; rfl)
  have hrunning := h.inv.running
  have hended := h.inv.ended
  rw [hc] at hrunning hended
  cases hpc : s.thread.child <;> rw [hpc] at hpast hrunning hended
  case running => cases hrunning.mp rfl
  case ended => cases hended.mp rfl
  all_goals cases hpast

/-- The child calls it. -/
theorem AtLatch.step_naming (h : s.AtLatch) (hc : s.child = .outside) :
    s.step (.thread .childNext) = some { s with
      thread := { s.thread with threadName := s.thread.name, child := .running }
      child := .constructing } := by
  have hth : s.thread.step .childNext = some { s.thread with
      threadName := s.thread.name, child := .running } := by
    rw [Thread.step, Thread.childNext, h.naming hc]
  have ho : s.owner ≠ .starting := by
    intro ho
    have hin := h.owner
    rw [ho] at hin
    cases hin
  have hstarting : Thread.Action.childNext.isStarting = true := rfl
  rw [step, if_pos hstarting, hth, Option.map_some, setThread]
  simp only [ho, hc, false_and, and_self, if_true, if_false]

/-- **Then the child comes to `countDown()`.** -/
theorem AtLatch.can_call (h : s.AtLatch) (hw : s.owner.waits = true) :
    Runs.Can step Action.IsNext
      (fun s => (s.AtLatch ∧ s.owner.waits = true) ∧ s.child.called = true) s := by
  refine Runs.can_of_measure (I := fun s => s.AtLatch ∧ s.owner.waits = true)
    (fun s => s.child.rank) (fun s ⟨h, hw⟩ hP => ?_) ⟨h, hw⟩
  have hchild : s.child.called ≠ true := fun hc => hP ⟨⟨h, hw⟩, hc⟩
  have hstep {n : ℕ} (a : Action) (t : EventLoopThread) (ha : a.IsNext) (hs : s.step a = some t)
      (ho : t.owner = s.owner) (hth : t.thread.child ≠ .absent) (hlt : t.child.rank < n) :
      ∃ a t, Action.IsNext a ∧ s.step a = some t ∧ (t.AtLatch ∧ t.owner.waits = true) ∧
        t.child.rank < n :=
    ⟨a, t, ha, hs, ⟨⟨h.inv.of_step hs, ho ▸ h.owner, hth⟩, ho ▸ hw⟩, hlt⟩
  cases hc : s.child with
  | outside =>
    exact hstep _ _ (.inr (.inl rfl)) (h.step_naming hc) rfl Thread.ChildPc.noConfusion
      (Nat.lt_succ_self 3)
  | constructing =>
    exact hstep .childNext
      { s with constructed := some s.thread.childTid, child := .storing }
      (.inr (.inr (.inr rfl))) (by rw [step, childNext, hc]) rfl h.child (Nat.lt_succ_self 2)
  | storing =>
    exact hstep .childNext { s with loop := s.constructed, child := .calling }
      (.inr (.inr (.inr rfl))) (by rw [step, childNext, hc]) rfl h.child (Nat.lt_succ_self 1)
  | calling =>
    refine hstep .childNext { s with
      latch := { s.latch with calls := s.latch.calls + 1 }.setPc .child .downLock
      child := .counting } (.inr (.inr (.inr rfl))) ?_ rfl h.child Nat.zero_lt_one
    rw [step, childNext, hc]
    dsimp only
    rw [(h.inv.latch_child hc).step_countDown]
    rfl
  | counting | looping | left =>
    rw [hc] at hchild
    exact absurd rfl hchild

/-- **Then `latch_.wait()` returns.** -/
theorem AtLatch.can_return (h : s.AtLatch) (hw : s.owner.waits = true) (hc : s.child.called = true) :
    Runs.Can step Action.IsNext (fun s => s.owner = .idle ∨ s.owner = .quitting) s := by
  have hlatch := h.inv.latch
  rw [hw, hc] at hlatch
  refine Runs.Can.lift (R := fun s l => s.Inv ∧ s.owner.waits = true ∧ s.latch = l)
    hlatch.waiter.can ⟨h.inv, hw, rfl⟩ ?_ ?_
  · rintro s _ _ l' ⟨h, hw, rfl⟩ ⟨t, rfl⟩ hl
    cases t with
    | owner =>
      obtain ⟨d, ho⟩ : ∃ d, s.owner = .waiting d := by
        cases ho : s.owner with
        | waiting d => exact ⟨d, rfl⟩
        | _ =>
          rw [ho] at hw
          cases hw
      have hs : s.step .ownerNext = some (if l'.pc .owner = .outside then
          if d then { s with latch := l', owner := .quitting }
          else { s with latch := l', owner := .idle, returned := s.returned ++ [s.loop] }
        else { s with latch := l' }) := by
        rw [step, ownerNext, ho]
        dsimp only
        rw [hl]
        rfl
      refine ⟨.ownerNext, _, .inr (.inr (.inl rfl)), hs, ?_⟩
      by_cases hout : l'.pc .owner = .outside
      · refine .inl ?_
        rw [if_pos hout]
        cases d
        · exact .inl rfl
        · exact .inr rfl
      · refine .inr ⟨h.of_step hs, ?_⟩
        rw [if_neg hout]
        exact ⟨hw, rfl⟩
    | child =>
      have hc : s.child = .counting := beq_iff_eq.mp (h.latch.counting_of_next hl)
      have hs : s.step .childNext = some { s with
          latch := l', child := if l'.pc .child = .outside then .looping else .counting } := by
        rw [step, childNext, hc]
        dsimp only
        rw [hl]
        rfl
      exact ⟨.childNext, _, .inr (.inr (.inr rfl)), hs, .inr ⟨h.of_step hs, hw, rfl⟩⟩
  · -- a thread in `wait()` is not outside
    rintro s _ ⟨h, hw, rfl⟩ hout
    have hwait := h.latch.waits hw
    rw [hout] at hwait
    cases hwait

/-- The owner is at `latch_.wait()`, and there is no child. -/
structure Stuck (s : EventLoopThread) : Prop where
  inv : s.Inv
  owner : s.owner.inLatch = true
  child : s.thread.child = .absent

/-- Without a child nobody is in `EventLoopThread::loop()`. -/
theorem Stuck.outside (h : s.Stuck) : s.child = .outside := by
  have hrunning := h.inv.running
  have hended := h.inv.ended
  rw [h.child] at hrunning hended
  cases hc : s.child <;> rw [hc] at hrunning hended
  case left => cases hended.mpr rfl
  all_goals cases hrunning.mpr rfl

/-- **Nothing helps**: nobody counts, and the owner cannot start the thread again. -/
theorem Stuck.of_step {a : Action} (h : s.Stuck) (hs : s.step a = some t) : t.Stuck := by
  have hinv := h.inv.of_step hs
  have hidle : s.owner ≠ .idle := by
    intro ho
    have hin := h.owner
    rw [ho] at hin
    cases hin
  have hstarting : s.owner ≠ .starting := by
    intro ho
    have hin := h.owner
    rw [ho] at hin
    cases hin
  cases a with
  | startLoop | destroy =>
    obtain ⟨ho, -⟩ := Option.ite_none_right_eq_some.mp hs
    exact absurd ho hidle
  | thread a =>
    obtain ⟨ha, hs⟩ := Option.ite_none_right_eq_some.mp hs
    obtain ⟨th, hth, rfl⟩ := Option.map_eq_some_iff.mp hs
    have howner : (s.setThread th).owner = s.owner := if_neg fun hand => hstarting hand.1
    exact ⟨hinv, by rw [howner]; exact h.owner,
      Thread.absent_of_starting ha hth h.child (h.inv.idle hstarting)⟩
  | ownerNext =>
    rw [step, ownerNext] at hs
    cases ho : s.owner <;> rw [ho] at hs
    case called d =>
      obtain ⟨l, -, rfl⟩ := Option.map_eq_some_iff.mp hs
      exact ⟨hinv, rfl, h.child⟩
    case waiting d =>
      obtain ⟨l, hl, rfl⟩ := Option.map_eq_some_iff.mp hs
      obtain ⟨hlatch, hreturned⟩ := (h.inv.latch_owner ho).waitNext hl
      by_cases hout : l.pc .owner = .outside
      · -- the child would have counted
        have hcalled := (hlatch.past (hreturned hout)).1
        rw [h.outside] at hcalled
        cases hcalled
      · rw [if_neg hout] at hinv ⊢
        exact ⟨hinv, rfl, h.child⟩
    all_goals cases hs
  | spurious =>
    obtain ⟨l, -, rfl⟩ := Option.map_eq_some_iff.mp hs
    exact ⟨hinv, h.owner, h.child⟩
  | childNext =>
    rw [step, childNext, h.outside] at hs
    cases hs
  | leave o =>
    obtain ⟨hc, -⟩ := Option.ite_none_right_eq_some.mp hs
    rw [h.outside] at hc
    cases hc

/-- The owner comes out of `thread_.start()` and `latch_.wait()`. -/
theorem Inv.can_return (h : s.Inv) (hc : s.thread.child ≠ .absent)
    (ho : s.owner = .starting ∨ s.owner.inLatch = true) :
    Runs.Can step Action.IsNext (fun s => s.owner = .idle ∨ s.owner = .quitting) s := by
  have hlatch {s : EventLoopThread} (h : s.AtLatch) :
      Runs.Can step Action.IsNext (fun s => s.owner = .idle ∨ s.owner = .quitting) s :=
    (h.can_wait.bind fun s hs => hs.1.can_call hs.2).bind fun s hs => hs.1.1.can_return hs.1.2 hs.2
  rcases ho with ho | ho
  · exact (h.can_startThread ho hc).bind fun s hs => hlatch hs
  · exact hlatch ⟨h, ho, hc⟩

end EventLoopThread

end Net

end Muduo
