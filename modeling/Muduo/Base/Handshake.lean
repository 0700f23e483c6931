import Muduo.Base.CountDownLatch

/-! # A latch between two threads

How `Thread` and `EventLoopThread` use a `CountDownLatch(1)`: one thread, the owner, waits for
another one, its child, which counts down once. **`Handshake`** says where the two are in the latch:
whether the owner is in `wait()`, whether the child is in `countDown()`, and whether it has called
it. The rules say what a step of one of the two does to this; `Handshake.past` is what the owner
knows when `wait()` has returned, and `Handshake.waiter` says that it will. -/

namespace Muduo

/-- The two threads. -/
inductive Party
  | owner
  | child
deriving DecidableEq, Repr

/-- Where the owner and the child are in the latch. -/
structure Handshake (l : CountDownLatch Party) (waiting counting called : Bool) : Prop where
  inv : l.Inv 1
  quiet : l.Quiet 1
  calls : l.calls = called.toNat
  waits : waiting = true → (l.pc .owner).inWait = true
  ownerOutside : waiting = false → l.pc .owner = .outside
  counts : counting = true → (l.pc .child).inCountDown = true
  childOutside : counting = false → l.pc .child = .outside

namespace Handshake

open CountDownLatch

variable {l l' : CountDownLatch Party} {waiting counting called : Bool}

/-- Nobody has begun. -/
theorem new : Handshake (.new 1) false false false where
  inv := inv_new
  quiet := fun hr => absurd hr (lt_irrefl 0)
  calls := rfl
  waits := fun h => by cases h
  ownerOutside := fun _ => rfl
  counts := fun h => by cases h
  childOutside := fun _ => rfl

/-- **When `wait()` has returned, the child is behind `countDown()`.** -/
theorem past (h : Handshake l waiting counting called) (hr : 0 < l.returns) :
    called = true ∧ counting = false := by
  have hle : (1 : ℤ) ≤ l.calls := h.inv.le_calls (h.inv.returned hr)
  have hcalls := h.calls
  have hcalled : called = true := by
    cases called with
    | true => rfl
    | false =>
      have : l.calls = 0 := hcalls
      omega
  subst hcalled
  refine ⟨rfl, ?_⟩
  have hone : l.calls = 1 := hcalls
  have hquiet := h.quiet hr (by omega) .child
  rw [Bool.eq_false_iff]
  intro hc
  rw [h.counts hc] at hquiet
  cases hquiet

/-- Nobody has locked `mutex_` outside of the two functions. -/
theorem unlocked (h : Handshake l false false called) : l.mutex = none := by
  cases hm : l.mutex with
  | none => rfl
  | some p =>
    have hlocked := (h.inv.mutex p).mpr hm
    cases p with
    | owner =>
      rw [h.ownerOutside rfl] at hlocked
      cases hlocked
    | child =>
      rw [h.childOutside rfl] at hlocked
      cases hlocked

/-- The owner waits, and what it waits for has begun. -/
theorem waiter (h : Handshake l true counting true) : l.Waiter 1 .owner :=
  ⟨h.inv, by rw [h.calls]; exact le_refl 1, .inr (h.waits rfl)⟩

/-! ## Steps of the owner -/

theorem step_wait (h : Handshake l false counting called) :
    l.step (.wait .owner) = some (l.setPc .owner .waitLock) :=
  if_pos (h.ownerOutside rfl)

/-- The owner calls `wait()`. -/
theorem callWait (h : Handshake l false counting called) :
    Handshake (l.setPc .owner .waitLock) true counting called := by
  have hs := h.step_wait
  have hchild := pc_of_step hs (u := .child) Party.noConfusion
  exact
    { inv := h.inv.of_step hs
      quiet := h.quiet.of_step h.inv hs
      calls := h.calls
      waits := fun _ => congrArg Pc.inWait (setPc_self _ _ _)
      ownerOutside := fun heq => by cases heq
      counts := fun hc => hchild ▸ h.counts hc
      childOutside := fun hc => hchild.trans (h.childOutside hc) }

/-- The owner goes on in `wait()`, and perhaps returns. -/
theorem waitNext (h : Handshake l true counting called) (hs : l.step (.next .owner) = some l') :
    Handshake l' (l'.pc .owner != .outside) counting called ∧
      (l'.pc .owner = .outside → 0 < l'.returns) := by
  have hchild := pc_of_step hs (u := .child) Party.noConfusion
  have hwait := h.waits rfl
  have hfollows := follows_of_next hs
  refine ⟨?_, fun hout => ?_⟩
  · exact
      { inv := h.inv.of_step hs
        quiet := h.quiet.of_step h.inv hs
        calls := (calls_of_next hs).trans h.calls
        waits := fun hne => (Pc.inWait_of_follows hfollows hwait).resolve_left (bne_iff_ne.mp hne)
        ownerOutside := fun heq => by simpa using heq
        counts := fun hc => hchild ▸ h.counts hc
        childOutside := fun hc => hchild.trans (h.childOutside hc) }
  · rw [returns_of_next hs, if_pos (Pc.eq_waitUnlock (hout ▸ hfollows) hwait)]
    exact Nat.succ_pos _

/-- `cond_.wait()` returns for no reason. -/
theorem spurious (h : Handshake l waiting counting called)
    (hs : l.step (.spurious .owner) = some l') :
    Handshake l' waiting counting called ∧ l'.returns = l.returns := by
  have hinv := h.inv.of_step hs
  have hquiet := h.quiet.of_step h.inv hs
  have hchild := pc_of_step hs (u := .child) Party.noConfusion
  obtain ⟨hpc, hs⟩ := Option.ite_none_right_eq_some.mp hs
  cases hs
  refine ⟨?_, rfl⟩
  exact
    { inv := hinv
      quiet := hquiet
      calls := h.calls
      waits := fun _ => congrArg Pc.inWait (setPc_self _ _ _)
      ownerOutside := fun hw => by
        rw [h.ownerOutside hw] at hpc
        cases hpc
      counts := fun hc => hchild ▸ h.counts hc
      childOutside := fun hc => hchild.trans (h.childOutside hc) }

/-! ## Steps of the child -/

theorem step_countDown (h : Handshake l waiting false called) : l.step (.countDown .child) =
    some ({ l with calls := l.calls + 1 }.setPc .child .downLock) :=
  if_pos (h.childOutside rfl)

/-- The child calls `countDown()`. -/
theorem callCountDown (h : Handshake l waiting false false) :
    Handshake ({ l with calls := l.calls + 1 }.setPc .child .downLock) waiting true true := by
  have hs := h.step_countDown
  have howner := pc_of_step hs (u := .owner) Party.noConfusion
  exact
    { inv := h.inv.of_step hs
      quiet := h.quiet.of_step h.inv hs
      calls := congrArg (· + 1) h.calls
      waits := fun hw => howner ▸ h.waits hw
      ownerOutside := fun hw => howner.trans (h.ownerOutside hw)
      counts := fun _ => congrArg Pc.inCountDown (setPc_self _ _ _)
      childOutside := fun heq => by cases heq }

/-- The child goes on in `countDown()`, and perhaps returns. -/
theorem countNext (h : Handshake l waiting true called) (hs : l.step (.next .child) = some l') :
    Handshake l' waiting (l'.pc .child != .outside) called ∧ l.returns ≤ l'.returns := by
  have howner := pc_of_step hs (u := .owner) Party.noConfusion
  refine ⟨?_, ?_⟩
  · exact
      { inv := h.inv.of_step hs
        quiet := h.quiet.of_step h.inv hs
        calls := (calls_of_next hs).trans h.calls
        waits := fun hw => howner ▸ h.waits hw
        ownerOutside := fun hw => howner.trans (h.ownerOutside hw)
        counts := fun hne => (Pc.stays_of_follows (follows_of_next hs)
          (h.counts rfl)).resolve_left (bne_iff_ne.mp hne)
        childOutside := fun heq => by simpa using heq }
  · rw [returns_of_next hs]
    split_ifs <;> omega

/-- A child that goes on in the latch is in `countDown()`. -/
theorem counting_of_next (h : Handshake l waiting counting called)
    (hs : l.step (.next .child) = some l') : counting = true := by
  by_contra hc
  have hnone : l.next .child = none := by
    rw [CountDownLatch.next, h.childOutside (Bool.not_eq_true _ ▸ hc)]
  cases hnone.symm.trans hs

end Handshake

end Muduo
