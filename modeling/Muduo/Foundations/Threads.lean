import Mathlib.Data.Finset.Card
import Mathlib.Logic.Function.Basic
import Muduo.Foundations.Condition

/-! # Threads and where they are

The places of a program's threads are a function `pc : θ → φ`, and a step of the thread `t` is
`Function.update pc t p`. Three things are said about the places:

* **`Excludes inside m pc`**: the thread that has locked the mutex `m` is the one that is inside;
* **`InWait waits c pc`**: the threads in `wait()` of the condition variable `c` are those at `waits`;
* **`Tally counts n pc`**: `n` threads are at `counts`.

The rules say what a step does to each of them. -/

namespace Muduo

namespace Threads

open Function (update)

variable {θ φ : Type*}

/-- The thread that has locked the mutex is the one that is inside. -/
def Excludes (inside : φ → Bool) (m : Option θ) (pc : θ → φ) : Prop :=
  ∀ u, inside (pc u) = true ↔ m = some u

/-- The threads in `wait()` are those at `waits`. -/
def InWait (waits : φ → Bool) (c : Condition θ) (pc : θ → φ) : Prop :=
  ∀ u, c.Has u ↔ waits (pc u) = true

/-- `n` threads are at `counts`. -/
def Tally (counts : φ → Bool) (n : ℕ) (pc : θ → φ) : Prop :=
  ∃ F : Finset θ, F.card = n ∧ ∀ u, u ∈ F ↔ counts (pc u) = true

variable {inside waits counts : φ → Bool} {m : Option θ} {c : Condition θ} {pc : θ → φ} {t u : θ}
  {p : φ} {n : ℕ}

/-! ## Mutual exclusion -/

theorem excludes_of_forall (h : ∀ u, inside (pc u) = false) : Excludes inside none pc := by
  intro u
  rw [h u]
  exact iff_of_false Bool.false_ne_true (Option.some_ne_none u).symm

/-- **Two threads are never inside.** -/
theorem Excludes.unique (h : Excludes inside m pc) (ht : inside (pc t) = true)
    (hu : inside (pc u) = true) : u = t :=
  Option.some.inj (((h u).mp hu).symm.trans ((h t).mp ht))

theorem Excludes.outside (h : Excludes inside none pc) (u : θ) : inside (pc u) = false := by
  rw [Bool.eq_false_iff, Ne, h u]
  exact (Option.some_ne_none u).symm

variable [DecidableEq θ]

theorem Excludes.keep (h : Excludes inside m pc) (hp : inside p = inside (pc t)) :
    Excludes inside m (update pc t p) := by
  intro u
  by_cases hu : u = t
  · subst hu
    rw [Function.update_self, hp]
    exact h u
  · rw [Function.update_of_ne hu]
    exact h u

/-- A thread locks the mutex. -/
theorem Excludes.lock (h : Excludes inside none pc) (hp : inside p = true) :
    Excludes inside (some t) (update pc t p) := by
  intro u
  by_cases hu : u = t
  · subst hu
    rw [Function.update_self]
    exact iff_of_true hp rfl
  · rw [Function.update_of_ne hu, h.outside u]
    exact iff_of_false Bool.false_ne_true fun heq => hu (Option.some.inj heq).symm

/-- The thread unlocks it. -/
theorem Excludes.unlock (h : Excludes inside m pc) (ht : inside (pc t) = true)
    (hp : inside p = false) : Excludes inside none (update pc t p) := by
  refine excludes_of_forall fun u => ?_
  by_cases hu : u = t
  · subst hu
    rw [Function.update_self, hp]
  · rw [Function.update_of_ne hu, Bool.eq_false_iff]
    exact fun hin => hu (h.unique ht hin)

/-! ## Threads in `wait()` -/

omit [DecidableEq θ] in
theorem inWait_new (h : ∀ u, waits (pc u) = false) : InWait waits .new pc := by
  intro u
  rw [h u]
  exact iff_of_false Condition.not_has_new Bool.false_ne_true

theorem InWait.keep (h : InWait waits c pc) (hp : waits p = waits (pc t)) :
    InWait waits c (update pc t p) := by
  intro u
  by_cases hu : u = t
  · subst hu
    rw [Function.update_self, hp]
    exact h u
  · rw [Function.update_of_ne hu]
    exact h u

/-- A thread begins to wait. -/
theorem InWait.wait (h : InWait waits c pc) (hp : waits p = true) :
    InWait waits (c.wait t) (update pc t p) := by
  intro u
  rw [Condition.has_wait]
  by_cases hu : u = t
  · subst hu
    rw [Function.update_self]
    exact iff_of_true (.inl rfl) hp
  · rw [Function.update_of_ne hu, h u]
    exact or_iff_right hu

/-- The thread goes on. -/
theorem InWait.resume (h : InWait waits c pc) (hp : waits p = false) :
    InWait waits (c.resume t) (update pc t p) := by
  intro u
  rw [Condition.has_resume]
  by_cases hu : u = t
  · subst hu
    rw [Function.update_self, hp]
    exact iff_of_false (fun hand => hand.1 rfl) Bool.false_ne_true
  · rw [Function.update_of_ne hu, h u]
    exact and_iff_right hu

/-- A thread that does not wait notifies all. -/
theorem InWait.notifyAll (h : InWait waits c pc) (hp : waits p = waits (pc t)) :
    InWait waits c.notifyAll (update pc t p) :=
  fun u => Condition.has_wake.trans (h.keep hp u)

/-! ## Counting threads -/

omit [DecidableEq θ] in
theorem tally_of_forall (h : ∀ u, counts (pc u) = false) : Tally counts 0 pc := by
  refine ⟨∅, Finset.card_empty, fun u => ?_⟩
  rw [h u]
  exact iff_of_false (Finset.notMem_empty u) Bool.false_ne_true

omit [DecidableEq θ] in
theorem Tally.forall_of_zero (h : Tally counts 0 pc) (u : θ) : counts (pc u) = false := by
  obtain ⟨F, hF, hmem⟩ := h
  rw [Finset.card_eq_zero] at hF
  subst hF
  rw [Bool.eq_false_iff, Ne, ← hmem u]
  exact Finset.notMem_empty u

omit [DecidableEq θ] in
theorem Tally.pos (h : Tally counts n pc) (ht : counts (pc t) = true) : 0 < n := by
  obtain ⟨F, rfl, hmem⟩ := h
  exact Finset.card_pos.mpr ⟨t, (hmem t).mpr ht⟩

omit [DecidableEq θ] in
theorem Tally.exists_of_pos (h : Tally counts n pc) (hn : 0 < n) :
    ∃ t, counts (pc t) = true := by
  obtain ⟨F, rfl, hmem⟩ := h
  obtain ⟨t, ht⟩ := Finset.card_pos.mp hn
  exact ⟨t, (hmem t).mp ht⟩

theorem Tally.keep (h : Tally counts n pc) (hp : counts p = counts (pc t)) :
    Tally counts n (update pc t p) := by
  obtain ⟨F, hF, hmem⟩ := h
  refine ⟨F, hF, fun u => ?_⟩
  by_cases hu : u = t
  · subst hu
    rw [Function.update_self, hp]
    exact hmem u
  · rw [Function.update_of_ne hu]
    exact hmem u

/-- One more. -/
theorem Tally.enter (h : Tally counts n pc) (ht : counts (pc t) = false) (hp : counts p = true) :
    Tally counts (n + 1) (update pc t p) := by
  obtain ⟨F, rfl, hmem⟩ := h
  have hnot : t ∉ F := by
    rw [hmem t, ht]
    exact Bool.false_ne_true
  refine ⟨insert t F, Finset.card_insert_of_notMem hnot, fun u => ?_⟩
  rw [Finset.mem_insert]
  by_cases hu : u = t
  · subst hu
    rw [Function.update_self]
    exact iff_of_true (.inl rfl) hp
  · rw [Function.update_of_ne hu, ← hmem u]
    exact or_iff_right hu

/-- One less. -/
theorem Tally.leave (h : Tally counts n pc) (ht : counts (pc t) = true) (hp : counts p = false) :
    Tally counts (n - 1) (update pc t p) := by
  obtain ⟨F, rfl, hmem⟩ := h
  refine ⟨F.erase t, Finset.card_erase_of_mem ((hmem t).mpr ht), fun u => ?_⟩
  rw [Finset.mem_erase]
  by_cases hu : u = t
  · subst hu
    rw [Function.update_self, hp]
    exact iff_of_false (fun hand => hand.1 rfl) Bool.false_ne_true
  · rw [Function.update_of_ne hu, ← hmem u]
    exact and_iff_right hu

end Threads

end Muduo
