import Muduo.Base.Bytes
import Muduo.Base.Handshake

/-! # `Thread`

How a thread is started and joined in `muduo/base/Thread.cc`: the owner of a `Thread` object calls
`start()`, and the thread that `pthread_create` makes, the child, stores its id in the object and
counts `latch_` down before it calls `func_()`. The two are interleaved at every access to the object
and at every step in its latch. The owner may destroy the object as soon as `start()` has returned,
while the child runs.

* **`Thread.start_safe`**: the child never uses the object after `start()` has returned, and the
  object has the child's id by then;
* **`Thread.start_can_return`**: `start()` never hangs. -/

namespace Muduo

namespace Thread

/-- Where the owner is. -/
inductive OwnerPc
  /-- In none of the member functions. -/
  | idle
  /-- In `start()`, at `pthread_create`. -/
  | creating
  /-- At the call of `latch_.wait()`. -/
  | created
  /-- In `latch_.wait()`. -/
  | waiting
  /-- At `assert(tid_>0)`. -/
  | asserting
  /-- In `join()`, at `pthread_join`. -/
  | joining
  /-- `~Thread()` has been called. -/
  | destroyed
deriving DecidableEq, Repr

/-- Where the child is. -/
inductive ChildPc
  /-- There is none. -/
  | absent
  /-- In `runInThread()`, at `*tid_=t_currentThread.tid()`. -/
  | storing
  /-- At the call of `latch_->countDown()`. -/
  | calling
  /-- In `latch_->countDown()`. -/
  | counting
  /-- At `t_currentThread.setThreadName(name_.c_str())`. -/
  | naming
  /-- In `func_()`. -/
  | running
  /-- `startThread` has returned. -/
  | ended
deriving DecidableEq, Repr

/-- How `func_()` is left. Any other exception is thrown again and ends the process. -/
inductive Outcome
  | returns
  /-- An `Exception` or a `std::exception`. -/
  | throws
deriving DecidableEq, Repr

/-- The owner is in `start()`, and not yet behind `latch_.wait()`. -/
def OwnerPc.starting : OwnerPc → Bool
  | creating | created | waiting => true
  | _ => false

/-- The owner is in `start()`. -/
def OwnerPc.inStart : OwnerPc → Bool
  | creating | created | waiting | asserting => true
  | _ => false

/-- The child has stored its id. -/
def ChildPc.stored : ChildPc → Bool
  | absent | storing => false
  | _ => true

/-- The child has called `countDown()`. -/
def ChildPc.called : ChildPc → Bool
  | counting | naming | running | ended => true
  | _ => false

/-- The child is behind its last access to the object. -/
def ChildPc.past : ChildPc → Bool
  | naming | running | ended => true
  | _ => false

end Thread

open Thread in
/-- `Thread`, with its owner and the child. -/
structure Thread where
  /-- `name_`. -/
  name : Bytes
  /-- `started_`. -/
  started : Bool
  /-- `joined_`. -/
  joined : Bool
  /-- `tid_`. -/
  tid : ℕ
  /-- `latch_`. -/
  latch : CountDownLatch Party
  owner : OwnerPc
  child : ChildPc
  /-- `t_currentThread.tid()` in the child. -/
  childTid : ℕ
  /-- `t_currentThread.threadName()` in the child. -/
  threadName : Bytes
  /-- The child has used the object after `~Thread()`. -/
  touched : Bool

namespace Thread

/-- `Thread(func, name)`. -/
def new (name : Bytes) : Thread where
  name := name
  started := false
  joined := false
  tid := 0
  latch := .new 1
  owner := .idle
  child := .absent
  childTid := 0
  threadName := ascii "unkown"
  touched := false

/-- What can happen. -/
inductive Action
  /-- The owner calls `start()`, up to `started_=true`. -/
  | start
  /-- `pthread_create` fails. -/
  | createFails
  /-- `pthread_create` makes the thread `tid`. -/
  | create (tid : ℕ)
  /-- The owner goes on in `start()`. -/
  | ownerNext
  /-- The child goes on, up to the call of `func_()`. -/
  | childNext
  /-- `cond_.wait()` in `latch_.wait()` returns for no reason. -/
  | spurious
  /-- `func_()` is left, and `startThread` returns. -/
  | finish (o : Outcome)
  /-- The owner calls `join()`, up to `joined_=true`. -/
  | join
  /-- `pthread_join` returns. -/
  | joinReturns
  /-- The owner calls `~Thread()`. -/
  | destroy
deriving DecidableEq, Repr

/-- The child uses the object. -/
def touch (s : Thread) : Thread := { s with touched := s.touched || s.owner == .destroyed }

/-- The owner goes on in `start()`. A failed assertion ends the execution. -/
def ownerNext (s : Thread) : Option Thread :=
  match s.owner with
  | .created => (s.latch.step (.wait .owner)).map fun l => { s with latch := l, owner := .waiting }
  | .waiting => (s.latch.step (.next .owner)).map fun l =>
    { s with latch := l, owner := if l.pc .owner = .outside then .asserting else .waiting }
  | .asserting => if 0 < s.tid then some { s with owner := .idle } else none
  | _ => none

/-- The child goes on. Behind the latch it uses its `ThreadData` only. -/
def childNext (s : Thread) : Option Thread :=
  match s.child with
  | .storing => some { s.touch with tid := s.childTid, child := .calling }
  | .calling => (s.latch.step (.countDown .child)).map fun l =>
    { s.touch with latch := l, child := .counting }
  | .counting => (s.latch.step (.next .child)).map fun l =>
    { s.touch with latch := l, child := if l.pc .child = .outside then .naming else .counting }
  | .naming => some { s with threadName := s.name, child := .running }
  | _ => none

/-- One action. -/
def step (s : Thread) : Action → Option Thread
  | .start =>
    if s.owner = .idle ∧ s.started = false then some { s with started := true, owner := .creating }
    else none
  | .createFails =>
    if s.owner = .creating then some { s with started := false, owner := .idle } else none
  | .create tid =>
    if s.owner = .creating ∧ 0 < tid then
      some { s with owner := .created, child := .storing, childTid := tid }
    else none
  | .ownerNext => s.ownerNext
  | .childNext => s.childNext
  | .spurious => (s.latch.step (.spurious .owner)).map fun l => { s with latch := l }
  | .finish o =>
    if s.child = .running then some { s with
      threadName := ascii (match o with | .returns => "finished" | .throws => "crashed")
      child := .ended }
    else none
  | .join =>
    if s.owner = .idle ∧ s.started = true ∧ s.joined = false then
      some { s with joined := true, owner := .joining }
    else none
  | .joinReturns =>
    if s.owner = .joining ∧ s.child = .ended then some { s with owner := .idle } else none
  | .destroy => if s.owner = .idle then some { s with owner := .destroyed } else none

/-! ## The invariant -/

/-- The invariant. -/
structure Inv (s : Thread) : Prop where
  /-- The owner waits in the latch, and the child counts once. -/
  latch : Handshake s.latch (s.owner == .waiting) (s.child == .counting) s.child.called
  began : s.owner.inStart = true → s.started = true
  /-- `start()` goes on when `latch_.wait()` has returned. -/
  back : s.started = true → s.owner.starting = false → 0 < s.latch.returns
  child : s.child = .absent ↔ s.started = false ∨ s.owner = .creating
  tid : s.child.stored = true → s.tid = s.childTid
  childTid : s.child ≠ .absent → 0 < s.childTid
  touched : s.touched = false
  named : s.child = .running → s.threadName = s.name

variable {s t : Thread} {name : Bytes}

theorem inv_new : (new name).Inv where
  latch := .new
  began := fun h => by cases h
  back := fun h => by cases h
  child := iff_of_true rfl (.inl rfl)
  tid := fun h => by cases h
  childTid := fun h => absurd rfl h
  touched := rfl
  named := fun h => by cases h

/-- **When `start()` has returned, the child is behind its last access.** -/
theorem Inv.past (h : s.Inv) (hstarted : s.started = true) (hstarting : s.owner.starting = false) :
    s.child.past = true := by
  obtain ⟨hcalled, hcounting⟩ := h.latch.past (h.back hstarted hstarting)
  cases hc : s.child <;> rw [hc] at hcalled hcounting
  case absent | storing | calling => cases hcalled
  case counting => cases hcounting
  all_goals rfl

/-- While the child uses the object, the owner is in `start()`. -/
theorem Inv.starting (h : s.Inv) (hne : s.child ≠ .absent) (hpast : s.child.past = false) :
    s.owner.starting = true := by
  have hstarted : s.started = true := by
    rw [← Bool.not_eq_false]
    exact fun hf => hne (h.child.mpr (.inl hf))
  by_contra hst
  rw [h.past hstarted (Bool.not_eq_true _ ▸ hst)] at hpast
  cases hpast

/-- What the child uses is there. -/
theorem Inv.touch (h : s.Inv) (hne : s.child ≠ .absent) (hpast : s.child.past = false) :
    (s.touched || s.owner == .destroyed) = false := by
  have hst := h.starting hne hpast
  rw [h.touched, Bool.false_or, beq_eq_false_iff_ne]
  intro ho
  rw [ho] at hst
  cases hst

/-- Where the owner is, as the latch sees it. -/
theorem Inv.latch_owner (h : s.Inv) {o : OwnerPc} (ho : s.owner = o) :
    Handshake s.latch (o == .waiting) (s.child == .counting) s.child.called :=
  ho ▸ h.latch

/-- Where the child is, as the latch sees it. -/
theorem Inv.latch_child (h : s.Inv) {c : ChildPc} (hc : s.child = c) :
    Handshake s.latch (s.owner == .waiting) (c == .counting) c.called :=
  hc ▸ h.latch

/-! ## What a step preserves -/

theorem Inv.of_start (h : s.Inv) (ho : s.owner = .idle) (hs : s.started = false) :
    ({ s with started := true, owner := .creating } : Thread).Inv :=
  { h with
    latch := (h.latch_owner ho :)
    began := fun _ => rfl
    back := fun _ hst => by cases hst
    child := iff_of_true (h.child.mpr (.inl hs)) (.inr rfl) }

theorem Inv.of_createFails (h : s.Inv) (ho : s.owner = .creating) :
    ({ s with started := false, owner := .idle } : Thread).Inv :=
  { h with
    latch := (h.latch_owner ho :)
    began := fun hst => by cases hst
    back := fun hf => by cases hf
    child := iff_of_true (h.child.mpr (.inr ho)) (.inl rfl) }

theorem Inv.of_create (h : s.Inv) {tid : ℕ} (ho : s.owner = .creating) (htid : 0 < tid) :
    ({ s with owner := .created, child := .storing, childTid := tid } : Thread).Inv := by
  have habsent : s.child = .absent := h.child.mpr (.inr ho)
  have hstarted : s.started = true := h.began (by rw [ho]; rfl)
  have hlatch := (h.latch_owner ho :)
  rw [habsent] at hlatch
  exact
    { h with
      latch := hlatch
      began := fun _ => hstarted
      back := fun _ hst => by cases hst
      child := iff_of_false ChildPc.noConfusion (by
        rintro (hf | hf)
        · exact Bool.false_ne_true (hf.symm.trans hstarted)
        · cases hf)
      tid := fun hst => by cases hst
      childTid := fun _ => htid
      named := fun heq => by cases heq }

theorem Inv.of_ownerNext (h : s.Inv) (hs : s.ownerNext = some t) : t.Inv := by
  have hcreating {o o' : OwnerPc} (ho : s.owner = o) (hne : o ≠ .creating) (hne' : o' ≠ .creating) :
      s.child = .absent ↔ s.started = false ∨ o' = .creating :=
    h.child.trans (or_congr_right (iff_of_false (ho ▸ hne) hne'))
  cases ho : s.owner <;> rw [ownerNext, ho] at hs
  case created =>
    have hlatch := (h.latch_owner ho :)
    obtain ⟨l, hl, rfl⟩ := Option.map_eq_some_iff.mp hs
    cases hlatch.step_wait.symm.trans hl
    exact
      { h with
        latch := hlatch.callWait
        began := fun _ => h.began (by rw [ho]; rfl)
        back := fun _ hst => by cases hst
        child := hcreating ho OwnerPc.noConfusion OwnerPc.noConfusion }
  case waiting =>
    obtain ⟨l, hl, rfl⟩ := Option.map_eq_some_iff.mp hs
    obtain ⟨hlatch, hreturned⟩ := (h.latch_owner ho).waitNext hl
    have hstarted := h.began (by rw [ho]; rfl)
    by_cases hout : l.pc .owner = .outside
    · rw [hout] at hlatch
      rw [if_pos hout]
      exact
        { h with
          latch := hlatch
          began := fun _ => hstarted
          back := fun _ _ => hreturned hout
          child := hcreating ho OwnerPc.noConfusion OwnerPc.noConfusion }
    · rw [bne_iff_ne.mpr hout] at hlatch
      rw [if_neg hout]
      exact
        { h with
          latch := hlatch
          began := fun _ => hstarted
          back := fun _ hst => by cases hst
          child := hcreating ho OwnerPc.noConfusion OwnerPc.noConfusion }
  case asserting =>
    obtain ⟨-, hs⟩ := Option.ite_none_right_eq_some.mp hs
    cases hs
    exact
      { h with
        latch := (h.latch_owner ho :)
        began := fun hst => by cases hst
        back := fun hstarted _ => h.back hstarted (by rw [ho]; rfl)
        child := hcreating ho OwnerPc.noConfusion OwnerPc.noConfusion }
  all_goals cases hs

/-- The child moves on, and uses the object while it is there. -/
theorem Inv.moveChild (h : s.Inv) {l : CountDownLatch Party} {c : ChildPc}
    (hlatch : Handshake l (s.owner == .waiting) (c == .counting) c.called)
    (hreturns : s.latch.returns ≤ l.returns) (hne : s.child ≠ .absent)
    (hpast : s.child.past = false) (hstored : s.child.stored = true) (hc : c ≠ .absent)
    (hrunning : c ≠ .running) : ({ s.touch with latch := l, child := c } : Thread).Inv :=
  { h with
    latch := hlatch
    back := fun hstarted hst => (h.back hstarted hst).trans_le hreturns
    child := (iff_of_false hc hne).trans h.child
    tid := fun _ => h.tid hstored
    childTid := fun _ => h.childTid hne
    touched := h.touch hne hpast
    named := fun heq => absurd heq hrunning }

theorem Inv.of_childNext (h : s.Inv) (hs : s.childNext = some t) : t.Inv := by
  have hne {c : ChildPc} (hc : s.child = c) (hc' : c ≠ .absent) : s.child ≠ .absent := hc ▸ hc'
  cases hc : s.child <;> rw [childNext, hc] at hs
  case storing =>
    cases hs
    have hne := hne hc ChildPc.noConfusion
    exact
      { h with
        latch := (h.latch_child hc :)
        child := (iff_of_false ChildPc.noConfusion hne).trans h.child
        tid := fun _ => rfl
        childTid := fun _ => h.childTid hne
        touched := h.touch hne (by rw [hc]; rfl)
        named := fun heq => by cases heq }
  case calling =>
    have hlatch := (h.latch_child hc :)
    obtain ⟨l, hl, rfl⟩ := Option.map_eq_some_iff.mp hs
    cases hlatch.step_countDown.symm.trans hl
    exact h.moveChild hlatch.callCountDown le_rfl (hne hc ChildPc.noConfusion) (by rw [hc]; rfl)
      (by rw [hc]; rfl) ChildPc.noConfusion ChildPc.noConfusion
  case counting =>
    obtain ⟨l, hl, rfl⟩ := Option.map_eq_some_iff.mp hs
    obtain ⟨hlatch, hreturns⟩ := (h.latch_child hc).countNext hl
    have hne := hne hc ChildPc.noConfusion
    by_cases hout : l.pc .child = .outside
    · rw [hout] at hlatch
      rw [if_pos hout]
      exact h.moveChild hlatch hreturns hne (by rw [hc]; rfl) (by rw [hc]; rfl)
        ChildPc.noConfusion ChildPc.noConfusion
    · rw [bne_iff_ne.mpr hout] at hlatch
      rw [if_neg hout]
      exact h.moveChild hlatch hreturns hne (by rw [hc]; rfl) (by rw [hc]; rfl)
        ChildPc.noConfusion ChildPc.noConfusion
  case naming =>
    cases hs
    have hne := hne hc ChildPc.noConfusion
    exact
      { h with
        latch := (h.latch_child hc :)
        child := (iff_of_false ChildPc.noConfusion hne).trans h.child
        tid := fun _ => h.tid (by rw [hc]; rfl)
        childTid := fun _ => h.childTid hne
        named := fun _ => rfl }
  all_goals cases hs

/-- The owner moves, outside of `start()`. -/
theorem Inv.moveOwner (h : s.Inv) {o o' : OwnerPc} {joined : Bool} (ho : s.owner = o)
    (hst : o.inStart = false) (hst' : o'.inStart = false) :
    ({ s with owner := o', joined := joined } : Thread).Inv := by
  have hflag {p : OwnerPc} (hp : p.inStart = false) :
      (p == .waiting) = false ∧ p ≠ .creating ∧ p.starting = false := by
    cases p <;> first | exact ⟨rfl, OwnerPc.noConfusion, rfl⟩ | cases hp
  have hlatch := h.latch_owner ho
  rw [(hflag hst).1] at hlatch
  exact
    { h with
      latch := (hflag hst').1.symm ▸ hlatch
      began := fun hf => by
        rw [hst'] at hf
        cases hf
      back := fun hstarted _ => h.back hstarted (ho ▸ (hflag hst).2.2)
      child := h.child.trans
        (or_congr_right (iff_of_false (ho ▸ (hflag hst).2.1) (hflag hst').2.1)) }

theorem Inv.of_step {a : Action} (h : s.Inv) (hs : s.step a = some t) : t.Inv := by
  cases a with
  | start =>
    obtain ⟨⟨ho, hst⟩, hs⟩ := Option.ite_none_right_eq_some.mp hs
    cases hs
    exact h.of_start ho hst
  | createFails =>
    obtain ⟨ho, hs⟩ := Option.ite_none_right_eq_some.mp hs
    cases hs
    exact h.of_createFails ho
  | create tid =>
    obtain ⟨⟨ho, htid⟩, hs⟩ := Option.ite_none_right_eq_some.mp hs
    cases hs
    exact h.of_create ho htid
  | ownerNext => exact h.of_ownerNext hs
  | childNext => exact h.of_childNext hs
  | spurious =>
    obtain ⟨l, hl, rfl⟩ := Option.map_eq_some_iff.mp hs
    obtain ⟨hlatch, hreturns⟩ := h.latch.spurious hl
    exact { h with latch := hlatch, back := fun hstarted hst => hreturns ▸ h.back hstarted hst }
  | finish o =>
    obtain ⟨hc, hs⟩ := Option.ite_none_right_eq_some.mp hs
    cases hs
    have hne : s.child ≠ .absent := by rw [hc]; exact ChildPc.noConfusion
    exact
      { h with
        latch := (h.latch_child hc :)
        child := (iff_of_false ChildPc.noConfusion hne).trans h.child
        tid := fun _ => h.tid (by rw [hc]; rfl)
        childTid := fun _ => h.childTid hne
        named := fun heq => by cases heq }
  | join =>
    obtain ⟨⟨ho, -, -⟩, hs⟩ := Option.ite_none_right_eq_some.mp hs
    cases hs
    exact h.moveOwner ho rfl rfl
  | joinReturns =>
    obtain ⟨⟨ho, -⟩, hs⟩ := Option.ite_none_right_eq_some.mp hs
    cases hs
    exact h.moveOwner ho rfl rfl
  | destroy =>
    obtain ⟨ho, hs⟩ := Option.ite_none_right_eq_some.mp hs
    cases hs
    exact h.moveOwner ho rfl rfl

/-- The invariant of all runs. -/
theorem inv_of_exec {as : List Action} (h : Runs.exec step (new name) as = some s) : s.Inv :=
  Runs.exec_induction inv_new (fun _ _ _ ht hs => Inv.of_step ht hs) h

/-! ## The actions of `start()` -/

/-- The action belongs to `start()`, or to the way of the child to `func_()`. -/
def Action.isStarting : Action → Bool
  | createFails | create _ | ownerNext | childNext | spurious => true
  | _ => false

/-- The owner stays in `start()` or returns from it. -/
theorem owner_of_starting {a : Action} (ha : a.isStarting = true) (hs : s.step a = some t) :
    t.owner = s.owner ∨ s.owner.inStart = true ∧ (t.owner.inStart = true ∨ t.owner = .idle) := by
  cases a with
  | createFails =>
    obtain ⟨ho, hs⟩ := Option.ite_none_right_eq_some.mp hs
    cases hs
    exact .inr ⟨by rw [ho]; rfl, .inr rfl⟩
  | create tid =>
    obtain ⟨⟨ho, -⟩, hs⟩ := Option.ite_none_right_eq_some.mp hs
    cases hs
    exact .inr ⟨by rw [ho]; rfl, .inl rfl⟩
  | ownerNext =>
    cases ho : s.owner <;> rw [step, ownerNext, ho] at hs
    case created =>
      obtain ⟨l, -, rfl⟩ := Option.map_eq_some_iff.mp hs
      exact .inr ⟨rfl, .inl rfl⟩
    case waiting =>
      obtain ⟨l, -, rfl⟩ := Option.map_eq_some_iff.mp hs
      refine .inr ⟨rfl, .inl ?_⟩
      dsimp only
      split_ifs <;> rfl
    case asserting =>
      obtain ⟨-, hs⟩ := Option.ite_none_right_eq_some.mp hs
      cases hs
      exact .inr ⟨rfl, .inr rfl⟩
    all_goals cases hs
  | childNext =>
    cases hc : s.child <;> rw [step, childNext, hc] at hs
    case calling | counting =>
      obtain ⟨l, -, rfl⟩ := Option.map_eq_some_iff.mp hs
      exact .inl rfl
    case storing | naming =>
      cases hs
      exact .inl rfl
    all_goals cases hs
  | spurious =>
    obtain ⟨l, -, rfl⟩ := Option.map_eq_some_iff.mp hs
    exact .inl rfl
  | _ => cases ha

/-- The child does not come to the end of `func_()`, and once it is in it, it stays what it is. -/
theorem Inv.child_of_starting (h : s.Inv) {a : Action} (ha : a.isStarting = true)
    (hs : s.step a = some t) :
    (s.child = .running ∨ s.child = .ended → t.child = s.child ∧ t.childTid = s.childTid) ∧
      (s.child ≠ .ended → t.child ≠ .ended) ∧ (s.child ≠ .absent → t.child ≠ .absent) := by
  cases a with
  | createFails =>
    obtain ⟨-, hs⟩ := Option.ite_none_right_eq_some.mp hs
    cases hs
    exact ⟨fun _ => ⟨rfl, rfl⟩, id, id⟩
  | create tid =>
    obtain ⟨⟨ho, -⟩, hs⟩ := Option.ite_none_right_eq_some.mp hs
    cases hs
    rw [h.child.mpr (.inr ho)]
    refine ⟨fun hf => ?_, fun _ => ChildPc.noConfusion, fun hne => absurd rfl hne⟩
    rcases hf with hf | hf <;> cases hf
  | ownerNext =>
    cases ho : s.owner <;> rw [step, ownerNext, ho] at hs
    case created | waiting =>
      obtain ⟨l, -, rfl⟩ := Option.map_eq_some_iff.mp hs
      exact ⟨fun _ => ⟨rfl, rfl⟩, id, id⟩
    case asserting =>
      obtain ⟨-, hs⟩ := Option.ite_none_right_eq_some.mp hs
      cases hs
      exact ⟨fun _ => ⟨rfl, rfl⟩, id, id⟩
    all_goals cases hs
  | childNext =>
    cases hc : s.child <;> rw [step, childNext, hc] at hs
    case calling =>
      obtain ⟨l, -, rfl⟩ := Option.map_eq_some_iff.mp hs
      exact ⟨(by rintro (hf | hf) <;> cases hf), fun _ => ChildPc.noConfusion,
        fun _ => ChildPc.noConfusion⟩
    case counting =>
      obtain ⟨l, -, rfl⟩ := Option.map_eq_some_iff.mp hs
      refine ⟨(by rintro (hf | hf) <;> cases hf), fun _ => ?_, fun _ => ?_⟩ <;>
      · dsimp only
        split_ifs <;> exact ChildPc.noConfusion
    case storing | naming =>
      cases hs
      exact ⟨(by rintro (hf | hf) <;> cases hf), fun _ => ChildPc.noConfusion,
        fun _ => ChildPc.noConfusion⟩
    all_goals cases hs
  | spurious =>
    obtain ⟨l, -, rfl⟩ := Option.map_eq_some_iff.mp hs
    exact ⟨fun _ => ⟨rfl, rfl⟩, id, id⟩
  | _ => cases ha

/-- Only the owner, in `start()`, makes a child. -/
theorem absent_of_starting {a : Action} (ha : a.isStarting = true) (hs : s.step a = some t)
    (hc : s.child = .absent) (ho : s.owner = .idle) : t.child = .absent := by
  cases a with
  | createFails | create tid =>
    obtain ⟨hcond, hs⟩ := Option.ite_none_right_eq_some.mp hs
    simp [ho] at hcond
  | ownerNext =>
    rw [step, ownerNext, ho] at hs
    cases hs
  | childNext =>
    rw [step, childNext, hc] at hs
    cases hs
  | spurious =>
    obtain ⟨l, -, rfl⟩ := Option.map_eq_some_iff.mp hs
    exact hc
  | _ => cases ha

/-! ## What `start()` leaves -/

/-- Outside of `start()` nobody is in the latch. -/
theorem Inv.unlocked (h : s.Inv) (hst : s.owner.starting = false) : s.latch.mutex = none := by
  have howner : (s.owner == .waiting) = false := by
    cases ho : s.owner <;> rw [ho] at hst <;> first | rfl | cases hst
  have hchild : (s.child == .counting) = false := by
    rw [beq_eq_false_iff_ne]
    intro hc
    have hstarting := h.starting (by rw [hc]; exact ChildPc.noConfusion) (by rw [hc]; rfl)
    rw [hst] at hstarting
    cases hstarting
  have hlatch := h.latch
  rw [howner, hchild] at hlatch
  exact hlatch.unlocked

/-- Behind `latch_.wait()` the object has the id of the child. -/
theorem Inv.tid_pos (h : s.Inv) (hstarted : s.started = true) (hst : s.owner.starting = false) :
    s.tid = s.childTid ∧ 0 < s.tid := by
  have hpast := h.past hstarted hst
  have hstored : s.child.stored = true := by
    cases hc : s.child <;> rw [hc] at hpast <;> first | rfl | cases hpast
  have hne : s.child ≠ .absent := by
    intro hc
    rw [hc] at hpast
    cases hpast
  have heq := h.tid hstored
  exact ⟨heq, heq ▸ h.childTid hne⟩

/-- **The child and its `Thread` object.** In every run, however the owner and the child are
interleaved: the child never uses the object after its destruction. Whenever the owner is outside of
`start()`, no mutex is locked in the object, so that it may be destroyed; and if `start()` has
returned and has made a thread, then `tid_` is the positive id of the child, so that the assertion
behind `latch_.wait()` holds, and the child is on its way to `func_()` with the name of the object,
in it, or behind it. -/
theorem start_safe {as : List Action} (h : Runs.exec step (new name) as = some s) :
    s.touched = false ∧ (s.owner.starting = false → s.latch.mutex = none) ∧
      (s.started = true → s.owner.starting = false →
        (s.tid = s.childTid ∧ 0 < s.tid) ∧ s.child.past = true) ∧
      (s.child = .running → s.threadName = s.name) := by
  have hinv := inv_of_exec h
  exact ⟨hinv.touched, hinv.unlocked, fun hstarted hst =>
    ⟨hinv.tid_pos hstarted hst, hinv.past hstarted hst⟩, hinv.named⟩

/-- The owner waits before the child counts, and destroys the object at once. -/
def destroyAtOnce : List Action :=
  [.start, .create 7, .ownerNext, .ownerNext, .ownerNext] ++ List.replicate 6 .childNext ++
    List.replicate 5 .ownerNext ++ [.destroy, .childNext]

/-- The theorem at work: the child runs, and the object is gone. -/
theorem start_safe_destroyAtOnce : ∃ s : Thread,
    Runs.exec step (new (ascii "worker")) destroyAtOnce = some s ∧ s.owner = .destroyed ∧
      s.child = .running ∧ s.touched = false ∧ s.tid = 7 ∧ s.threadName = ascii "worker" := by
  have hrun : (Runs.exec step (new (ascii "worker")) destroyAtOnce).map
      (fun s => (s.owner, s.child, s.childTid, s.name)) =
        some (.destroyed, .running, 7, ascii "worker") := by
    decide +kernel
  obtain ⟨s, hs, heq⟩ := Option.map_eq_some_iff.mp hrun
  simp only [Prod.mk.injEq] at heq
  obtain ⟨ho, hc, htid, hname⟩ := heq
  obtain ⟨htouched, -, hback, hnamed⟩ := start_safe hs
  have hstarted : s.started = true := by
    have hsome : (Runs.exec step (new (ascii "worker")) destroyAtOnce).map started = some true := by
      decide +kernel
    rw [hs] at hsome
    exact Option.some.inj hsome
  have hback := hback hstarted (by rw [ho]; rfl)
  exact ⟨s, hs, ho, hc, htouched, hback.1.1.trans htid, (hnamed hc).trans hname⟩

/-! ## `start()` returns -/

/-- The action lets the owner or the child go on. -/
def Action.IsNext (a : Action) : Prop := a = .ownerNext ∨ a = .childNext

/-- The child can come to its call of `countDown()`. -/
theorem Inv.can_call (h : s.Inv) (ho : s.owner = .waiting) :
    Runs.Can step Action.IsNext (fun s => s.Inv ∧ s.owner = .waiting ∧ s.child.called = true) s := by
  have hcalling {s : Thread} (h : s.Inv) (ho : s.owner = .waiting) (hc : s.child = .calling) :
      Runs.Can step Action.IsNext
        (fun s => s.Inv ∧ s.owner = .waiting ∧ s.child.called = true) s := by
    have hs : s.step .childNext = some { s.touch with
        latch := { s.latch with calls := s.latch.calls + 1 }.setPc .child .downLock
        child := .counting } := by
      rw [step, childNext, hc]
      dsimp only
      rw [(h.latch_child hc).step_countDown]
      rfl
    exact Runs.can_of_step (.inr rfl) hs ⟨h.of_step hs, ho, rfl⟩
  have hstarted : s.started = true := h.began (by rw [ho]; rfl)
  cases hc : s.child with
  | absent =>
    rcases h.child.mp hc with hf | hf
    · exact absurd (hf.symm.trans hstarted) Bool.false_ne_true
    · rw [ho] at hf
      cases hf
  | storing =>
    have hs : s.step .childNext = some { s.touch with tid := s.childTid, child := .calling } := by
      rw [step, childNext, hc]
    exact .cons (.inr rfl) hs (hcalling (h.of_step hs) ho rfl)
  | calling => exact hcalling h ho hc
  | counting | naming | running | ended => exact Runs.can_of_now ⟨h, ho, by rw [hc]; rfl⟩

/-- What the latch can do, the two threads can do. -/
theorem Inv.can_wait (h : s.Inv) (ho : s.owner = .waiting) (hc : s.child.called = true) :
    Runs.Can step Action.IsNext (fun s => s.Inv ∧ s.owner = .asserting) s := by
  have hlatch := (h.latch_owner ho :)
  rw [hc] at hlatch
  refine Runs.Can.lift (R := fun s l => s.Inv ∧ s.owner = .waiting ∧ s.latch = l)
    hlatch.waiter.can ⟨h, ho, rfl⟩ ?_ ?_
  · rintro s l _ l' ⟨h, ho, rfl⟩ ⟨t, rfl⟩ hl
    cases t with
    | owner =>
      have hs : s.step .ownerNext = some { s with
          latch := l', owner := if l'.pc .owner = .outside then .asserting else .waiting } := by
        rw [step, ownerNext, ho]
        dsimp only
        rw [hl]
        rfl
      refine ⟨.ownerNext, _, .inl rfl, hs, ?_⟩
      by_cases hout : l'.pc .owner = .outside
      · exact .inl ⟨h.of_step hs, if_pos hout⟩
      · exact .inr ⟨h.of_step hs, if_neg hout, rfl⟩
    | child =>
      have hc : s.child = .counting := beq_iff_eq.mp (h.latch.counting_of_next hl)
      have hs : s.step .childNext = some { s.touch with
          latch := l', child := if l'.pc .child = .outside then .naming else .counting } := by
        rw [step, childNext, hc]
        dsimp only
        rw [hl]
        rfl
      exact ⟨.childNext, _, .inr rfl, hs, .inr ⟨h.of_step hs, ho, rfl⟩⟩
  · -- a thread in `wait()` is not outside
    rintro s _ ⟨h, ho, rfl⟩ hout
    have hwait := (h.latch_owner ho).waits rfl
    rw [hout] at hwait
    cases hwait

/-- The owner can come to the end of `start()`. -/
theorem Inv.can_start (h : s.Inv) (hst : s.owner.inStart = true) (hne : s.child ≠ .absent) :
    Runs.Can step Action.IsNext (fun s => s.owner = .idle ∧ s.started = true) s := by
  have hasserting {s : Thread} (h : s.Inv) (ho : s.owner = .asserting) :
      Runs.Can step Action.IsNext (fun s => s.owner = .idle ∧ s.started = true) s := by
    have hstarted : s.started = true := h.began (by rw [ho]; rfl)
    have hs : s.step .ownerNext = some { s with owner := .idle } := by
      rw [step, ownerNext, ho]
      exact if_pos (h.tid_pos hstarted (by rw [ho]; rfl)).2
    exact Runs.can_of_step (.inl rfl) hs ⟨rfl, hstarted⟩
  have hwaiting {s : Thread} (h : s.Inv) (ho : s.owner = .waiting) :
      Runs.Can step Action.IsNext (fun s => s.owner = .idle ∧ s.started = true) s :=
    ((h.can_call ho).bind fun s hs => hs.1.can_wait hs.2.1 hs.2.2).bind
      fun s hs => hasserting hs.1 hs.2
  cases ho : s.owner <;> rw [ho] at hst
  case creating => exact absurd (h.child.mpr (.inr ho)) hne
  case created =>
    have hs : s.step .ownerNext = some { s with
        latch := s.latch.setPc .owner .waitLock, owner := .waiting } := by
      rw [step, ownerNext, ho]
      dsimp only
      rw [(h.latch_owner ho).step_wait]
      rfl
    exact .cons (.inl rfl) hs (hwaiting (h.of_step hs) rfl)
  case waiting => exact hwaiting h ho
  case asserting => exact hasserting h ho
  all_goals cases hst

end Thread

end Muduo
