import Muduo.Foundations.Runs

/-! # What a machine can still do

**`Runs.Can step A P s`** says that from `s`, with actions of the kind `A` only, the machine can come
to a state with `P`. `Runs.can_of_measure` is the rule that proves it: where `P` does not hold yet,
some such action makes a measure smaller. `Runs.Can.bind` puts two stages together, and `Runs.Can.lift`
makes use of what a part of the machine can do. -/

namespace Muduo

namespace Runs

variable {σ α : Type*} (step : σ → α → Option σ)

/-- With actions of the kind `A`, the machine can come from `s` to a state with `P`. -/
def Can (A : α → Prop) (P : σ → Prop) (s : σ) : Prop :=
  ∃ as t, (∀ a ∈ as, A a) ∧ exec step s as = some t ∧ P t

variable {step} {A : α → Prop} {P Q : σ → Prop} {s t : σ}

/-- It is there. -/
theorem can_of_now (h : P s) : Can step A P s :=
  ⟨[], s, fun _ ha => absurd ha List.not_mem_nil, rfl, h⟩

/-- One action, and the rest. -/
theorem Can.cons {a : α} (ha : A a) (hs : step s a = some t) (h : Can step A P t) :
    Can step A P s := by
  obtain ⟨as, u, has, hu, hP⟩ := h
  refine ⟨a :: as, u, List.forall_mem_cons.mpr ⟨ha, has⟩, ?_, hP⟩
  rw [exec_cons, hs]
  exact hu

/-- The last action. -/
theorem can_of_step {a : α} (ha : A a) (hs : step s a = some t) (h : P t) : Can step A P s :=
  .cons ha hs (can_of_now h)

/-- **Two stages.** -/
theorem Can.bind (h : Can step A P s) (hnext : ∀ t, P t → Can step A Q t) : Can step A Q s := by
  obtain ⟨as, t, has, ht, hP⟩ := h
  obtain ⟨bs, u, hbs, hu, hQ⟩ := hnext t hP
  exact ⟨as ++ bs, u, List.forall_mem_append.mpr ⟨has, hbs⟩, exec_append_eq_some.mpr ⟨t, ht, hu⟩, hQ⟩

theorem Can.mono (h : Can step A P s) (himp : ∀ t, P t → Q t) : Can step A Q s :=
  h.bind fun t ht => can_of_now (himp t ht)

/-- What every action keeps still holds at the end. -/
theorem Can.keep {I : σ → Prop} (h : Can step A P s) (hI : I s)
    (hstep : ∀ t a t', I t → step t a = some t' → I t') : Can step A (fun t => I t ∧ P t) s := by
  obtain ⟨as, t, has, ht, hP⟩ := h
  exact ⟨as, t, has, ht, exec_induction hI hstep ht, hP⟩

/-- **A part that can get somewhere.** If a state goes along with a state of another machine, every
action of the other one of the kind `B` is one of its own, and it is where it should be when the
other one is, or earlier, then it can come there. -/
theorem Can.lift {τ β : Type*} {step' : τ → β → Option τ} {B : β → Prop} {Q : τ → Prop}
    {R : σ → τ → Prop} {u : τ} (h : Can step' B Q u) (hR : R s u)
    (hstep : ∀ s u b u', R s u → B b → step' u b = some u' →
      ∃ a s', A a ∧ step s a = some s' ∧ (P s' ∨ R s' u'))
    (hend : ∀ s u, R s u → Q u → P s) : Can step A P s := by
  obtain ⟨bs, v, hbs, hv, hQ⟩ := h
  induction bs generalizing s u with
  | nil =>
    cases hv
    exact can_of_now (hend s _ hR hQ)
  | cons b bs ih =>
    obtain ⟨hb, hbs⟩ := List.forall_mem_cons.mp hbs
    rw [exec_cons] at hv
    obtain ⟨u', hu', hv⟩ := Option.bind_eq_some_iff.mp hv
    obtain ⟨a, s', ha, hs', hP | hR'⟩ := hstep s u b u' hR hb hu'
    · exact can_of_step ha hs' hP
    · exact .cons ha hs' (ih hR' hbs hv)

/-- **Progress rule.** If, where `P` does not hold yet, some action of the kind `A` keeps `I` and
makes the measure smaller, then the machine can come to a state with `P`. -/
theorem can_of_measure {I : σ → Prop} (μ : σ → ℕ)
    (hstep : ∀ s, I s → ¬P s → ∃ a t, A a ∧ step s a = some t ∧ I t ∧ μ t < μ s) (hs : I s) :
    Can step A P s := by
  induction hn : μ s using Nat.strong_induction_on generalizing s with
  | _ n ih =>
    by_cases hP : P s
    · exact can_of_now hP
    · obtain ⟨a, t, ha, ht, hI, hlt⟩ := hstep s hs hP
      exact .cons ha ht (ih (μ t) (hn ▸ hlt) hI rfl)

end Runs

end Muduo
