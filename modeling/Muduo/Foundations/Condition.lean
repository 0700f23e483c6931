import Mathlib.Data.Finset.Card

/-! # Condition variables

A condition variable is the set of threads that are in `wait()`: those that have not been notified,
and those that have been and have not resumed yet. A notification wakes at least one of the first
kind, if there is any; a thread may also resume for no reason.

**`Condition.Covers c n`** is the accounting of wakeups: while a thread waits without having been
notified, at least `n` threads are on their way. The rules say what the operations do to `n`:
`covers_wait`, `Covers.notify`, `Covers.resume` and `Covers.mono`. -/

namespace Muduo

/-- A condition variable, with the threads in `wait()`. -/
structure Condition (θ : Type*) where
  /-- The threads that have not been notified. -/
  waiting : Finset θ
  /-- The threads that have been notified and have not resumed. -/
  notified : Finset θ
  /-- A thread is one or the other. -/
  disjoint : Disjoint waiting notified

namespace Condition

variable {θ : Type*}

/-- Nobody waits. -/
def new : Condition θ := ⟨∅, ∅, Finset.disjoint_empty_left _⟩

/-- The thread is in `wait()`. -/
def Has (c : Condition θ) (t : θ) : Prop := t ∈ c.waiting ∨ t ∈ c.notified

/-- While a thread waits without having been notified, at least `n` threads are on their way. -/
def Covers (c : Condition θ) (n : ℕ) : Prop := c.waiting.Nonempty → n ≤ c.notified.card

@[simp] theorem not_has_new {t : θ} : ¬(new : Condition θ).Has t := by
  simp [Has, new]

theorem covers_new {n : ℕ} : (new : Condition θ).Covers n := by
  rintro ⟨t, ht⟩
  exact absurd ht (Finset.notMem_empty t)

theorem Covers.mono {c : Condition θ} {n m : ℕ} (h : c.Covers n) (hm : m ≤ n) : c.Covers m :=
  fun hw => hm.trans (h hw)

/-- **Nobody is left waiting** beside something to do: somebody is on the way. -/
theorem Covers.notified_nonempty {c : Condition θ} {n : ℕ} (h : c.Covers n) (hn : 0 < n)
    (hw : c.waiting.Nonempty) : c.notified.Nonempty :=
  Finset.card_pos.mp (hn.trans_le (h hw))

variable [DecidableEq θ]

instance (c : Condition θ) (t : θ) : Decidable (c.Has t) :=
  inferInstanceAs (Decidable (t ∈ c.waiting ∨ t ∈ c.notified))

/-- The thread calls `wait()`. -/
def wait (c : Condition θ) (t : θ) : Condition θ where
  waiting := insert t c.waiting
  notified := c.notified.erase t
  disjoint := by
    rw [Finset.disjoint_insert_left]
    exact ⟨Finset.notMem_erase t _, c.disjoint.mono_right (Finset.erase_subset t _)⟩

/-- The threads `woken` are woken up. -/
def wake (c : Condition θ) (woken : Finset θ) : Condition θ where
  waiting := c.waiting \ woken
  notified := c.notified ∪ c.waiting ∩ woken
  disjoint := by
    rw [Finset.disjoint_union_right]
    exact ⟨c.disjoint.mono_left Finset.sdiff_subset,
      Finset.sdiff_disjoint.mono_right Finset.inter_subset_right⟩

/-- `notify()` wakes the threads `woken`: some that wait, if there are any. -/
def notify (c : Condition θ) (woken : Finset θ) : Option (Condition θ) :=
  if woken ⊆ c.waiting ∧ (c.waiting.Nonempty → woken.Nonempty) then some (c.wake woken) else none

/-- `notifyAll()`. -/
def notifyAll (c : Condition θ) : Condition θ := c.wake c.waiting

/-- The thread returns from `wait()`. -/
def resume (c : Condition θ) (t : θ) : Condition θ where
  waiting := c.waiting.erase t
  notified := c.notified.erase t
  disjoint := (c.disjoint.mono_left (Finset.erase_subset t _)).mono_right (Finset.erase_subset t _)

variable {c c' : Condition θ} {t u : θ} {n : ℕ} {woken : Finset θ}

/-! ## Who is in `wait()` -/

@[simp] theorem has_wait : (c.wait t).Has u ↔ u = t ∨ c.Has u := by
  by_cases hu : u = t <;> simp [Has, wait, hu]

@[simp] theorem has_wake : (c.wake woken).Has u ↔ c.Has u := by
  by_cases hu : u ∈ woken <;> simp [Has, wake, hu, or_comm]

@[simp] theorem has_resume : (c.resume t).Has u ↔ u ≠ t ∧ c.Has u := by
  simp [Has, resume, and_or_left]

theorem notify_eq_some :
    c.notify woken = some c' ↔
      (woken ⊆ c.waiting ∧ (c.waiting.Nonempty → woken.Nonempty)) ∧ c' = c.wake woken := by
  rw [notify, Option.ite_none_right_eq_some, Option.some_inj]
  exact and_congr_right fun _ => eq_comm

/-- A notification is always possible. -/
theorem exists_notify (c : Condition θ) : ∃ woken c', c.notify woken = some c' :=
  ⟨c.waiting, _, notify_eq_some.mpr ⟨⟨Finset.Subset.refl _, id⟩, rfl⟩⟩

theorem has_of_notify (h : c.notify woken = some c') : c'.Has u ↔ c.Has u := by
  obtain ⟨-, rfl⟩ := notify_eq_some.mp h
  exact has_wake

/-- **After `notifyAll()` nobody is left.** -/
@[simp] theorem waiting_notifyAll : c.notifyAll.waiting = ∅ := Finset.sdiff_self _

omit [DecidableEq θ] in
/-- Where nobody is left, a thread in `wait()` has been notified. -/
theorem Has.mem_notified (h : c.Has t) (hw : c.waiting = ∅) : t ∈ c.notified :=
  h.resolve_left (hw ▸ Finset.notMem_empty t)

/-- Nobody begins to wait, and nobody but `t` returns from `wait()`. -/
structure Keeps (t : θ) (c c' : Condition θ) : Prop where
  waiting : c'.waiting ⊆ c.waiting
  has : ∀ u ≠ t, c.Has u → c'.Has u

omit [DecidableEq θ] in
theorem keeps_refl : Keeps t c c := ⟨Finset.Subset.refl _, fun _ _ h => h⟩

theorem keeps_wake : Keeps t c (c.wake woken) :=
  ⟨Finset.sdiff_subset, fun _ _ h => has_wake.mpr h⟩

theorem keeps_notify (h : c.notify woken = some c') : Keeps t c c' := by
  obtain ⟨-, rfl⟩ := notify_eq_some.mp h
  exact keeps_wake

theorem keeps_resume : Keeps t c (c.resume t) :=
  ⟨Finset.erase_subset t _, fun _ hu h => has_resume.mpr ⟨hu, h⟩⟩

/-! ## The accounting of wakeups -/

/-- Where there is nothing to do, a thread may wait. -/
theorem covers_wait : (c.wait t).Covers 0 := fun _ => Nat.zero_le _

/-- **A notification makes up for one more.** -/
theorem Covers.notify (h : c.Covers n) (hn : c.notify woken = some c') : c'.Covers (n + 1) := by
  obtain ⟨⟨hsub, hne⟩, rfl⟩ := notify_eq_some.mp hn
  rintro ⟨t, ht⟩
  have hw : c.waiting.Nonempty := ⟨t, (Finset.mem_sdiff.mp ht).1⟩
  have hcard : (c.notified ∪ c.waiting ∩ woken).card = c.notified.card + woken.card := by
    rw [Finset.inter_eq_right.mpr hsub]
    exact Finset.card_union_of_disjoint (c.disjoint.symm.mono_right hsub)
  have hwoken : 0 < woken.card := Finset.card_pos.mpr (hne hw)
  have hcovers := h hw
  show n + 1 ≤ (c.notified ∪ c.waiting ∩ woken).card
  omega

/-- **A thread that resumes is one less on its way**, at most. -/
theorem Covers.resume (h : c.Covers n) : (c.resume t).Covers (n - 1) := by
  rintro ⟨u, hu⟩
  have hcovers := h ⟨u, Finset.mem_of_mem_erase hu⟩
  have hcard : c.notified.card - 1 ≤ (c.notified.erase t).card := Finset.pred_card_le_card_erase
  show n - 1 ≤ (c.notified.erase t).card
  omega

end Condition

end Muduo
