import Mathlib.Order.Basic
import Mathlib.Tactic.Use

/-! # Bounded execution of `while` loops

A `while` loop is given by its body, a partial step `σ → Option (σ ⊕ ρ)`: `none` is a fault,
`Sum.inl s` goes round again from `s`, `Sum.inr r` leaves the loop with `r`.

* **`Loop.run body n s`** executes at most `n` rounds, so it is structurally recursive and can be
  evaluated; running out of rounds answers `none`.
* **`Loop.Evals body s r`** is the fuel-free big-step reading; by `Loop.Evals.of_run` it has every
  result of the bounded one.
* **`Loop.Steps body s s'`** is "some number of rounds lead from `s` to `s'`".
* **`Loop.run_total`** is the total-correctness rule: an invariant and a variant that drops in each
  round give a result within `variant + 1` rounds. -/

namespace Muduo

namespace Loop

variable {σ ρ : Type*} (body : σ → Option (σ ⊕ ρ))

/-- Execute the loop for at most `n` rounds; `none` is a fault or an exhausted bound. -/
def run : ℕ → σ → Option ρ
  | 0, _ => none
  | n + 1, s =>
      match body s with
      | none => none
      | some (Sum.inl s') => run n s'
      | some (Sum.inr r) => some r

/-- The loop started in `s` leaves with result `r` after finitely many rounds. -/
inductive Evals : σ → ρ → Prop
  | stop {s : σ} {r : ρ} : body s = some (Sum.inr r) → Evals s r
  | next {s s' : σ} {r : ρ} : body s = some (Sum.inl s') → Evals s' r → Evals s r

/-- Finitely many rounds lead from `s` to `s'`. -/
inductive Steps : σ → σ → Prop
  | refl (s : σ) : Steps s s
  | next {s s' s'' : σ} : body s = some (Sum.inl s') → Steps s' s'' → Steps s s''

variable {body}

/-! ## Evaluating one round -/

theorem run_stop {n : ℕ} {s : σ} {r : ρ} (h : body s = some (Sum.inr r)) :
    run body (n + 1) s = some r := by
  rw [run, h]

theorem run_next {n : ℕ} {s s' : σ} (h : body s = some (Sum.inl s')) :
    run body (n + 1) s = run body n s' := by
  rw [run, h]

theorem run_fault {n : ℕ} {s : σ} (h : body s = none) : run body n s = none := by
  cases n with
  | zero => rfl
  | succ n => rw [run, h]

/-- A result found within `n` rounds is found within any larger number of rounds. -/
theorem run_mono {n m : ℕ} {s : σ} {r : ρ} (hnm : n ≤ m) (h : run body n s = some r) :
    run body m s = some r := by
  induction n generalizing m s with
  | zero => simp [run] at h
  | succ n ih =>
    obtain ⟨m, rfl⟩ : ∃ k, m = k + 1 := ⟨m - 1, by omega⟩
    rw [run] at h ⊢
    match hb : body s with
    | none => rw [hb] at h; simp at h
    | some (Sum.inl s') => rw [hb] at h; exact ih (by omega) h
    | some (Sum.inr r') => rw [hb] at h; exact h

/-! ## The big-step reading -/

/-- A result of the bounded execution is a result of the loop. -/
theorem Evals.of_run {n : ℕ} {s : σ} {r : ρ} (h : run body n s = some r) : Evals body s r := by
  induction n generalizing s with
  | zero => simp [run] at h
  | succ n ih =>
    rw [run] at h
    match hb : body s with
    | none => rw [hb] at h; simp at h
    | some (Sum.inl s') => rw [hb] at h; exact .next hb (ih h)
    | some (Sum.inr r') =>
      rw [hb] at h
      obtain rfl : r' = r := by simpa using h
      exact .stop hb

/-- A loop has at most one result. -/
theorem Evals.unique {s : σ} {r r' : ρ} (h : Evals body s r) (h' : Evals body s r') : r = r' := by
  induction h with
  | stop hb =>
    cases h' with
    | stop hb' => simpa using hb.symm.trans hb'
    | next hb' _ => simp [hb] at hb'
  | next hb _ ih =>
    cases h' with
    | stop hb' => simp [hb] at hb'
    | next hb' h' =>
      obtain rfl := Sum.inl.inj (Option.some.inj (hb.symm.trans hb'))
      exact ih h'

/-! ## Finitely many rounds -/

theorem Steps.trans {s s' s'' : σ} (h : Steps body s s') (h' : Steps body s' s'') :
    Steps body s s'' := by
  induction h with
  | refl => exact h'
  | next hb _ ih => exact .next hb (ih h')

theorem Steps.single {s s' : σ} (h : body s = some (Sum.inl s')) : Steps body s s' :=
  .next h (.refl s')

/-- Rounds taken first can be put in front of an evaluation. -/
theorem Steps.evals {s s' : σ} {r : ρ} (h : Steps body s s') (h' : Evals body s' r) :
    Evals body s r := by
  induction h with
  | refl => exact h'
  | next hb _ ih => exact .next hb (ih h')

/-- Rounds taken first can be dropped from an evaluation: the loop is deterministic. -/
theorem Steps.evals_iff {s s' : σ} {r : ρ} (h : Steps body s s') :
    Evals body s r ↔ Evals body s' r := by
  refine ⟨fun h' => ?_, h.evals⟩
  induction h with
  | refl => exact h'
  | next hb _ ih =>
    cases h' with
    | stop hb' => simp [hb] at hb'
    | next hb' h' =>
      obtain rfl := Sum.inl.inj (Option.some.inj (hb.symm.trans hb'))
      exact ih h'

/-- The last round of an evaluation: the rounds before it, and the state it stops in. -/
theorem Evals.exists_stop {s : σ} {r : ρ} (h : Evals body s r) :
    ∃ s', Steps body s s' ∧ body s' = some (Sum.inr r) := by
  induction h with
  | stop hb => exact ⟨_, .refl _, hb⟩
  | next hb _ ih =>
    obtain ⟨s', hs, hstop⟩ := ih
    exact ⟨s', .next hb hs, hstop⟩

/-- Two states reached from one start, both of which leave the loop, are equal. -/
theorem Steps.unique_stop {s s₁ s₂ : σ} {r₁ r₂ : ρ} (h₁ : Steps body s s₁)
    (hs₁ : body s₁ = some (Sum.inr r₁)) (h₂ : Steps body s s₂)
    (hs₂ : body s₂ = some (Sum.inr r₂)) : s₁ = s₂ := by
  induction h₁ with
  | refl =>
    cases h₂ with
    | refl => rfl
    | next hb _ => simp [hs₁] at hb
  | next hb _ ih =>
    cases h₂ with
    | refl => simp [hb] at hs₂
    | next hb' h₂ =>
      obtain rfl := Sum.inl.inj (Option.some.inj (hb.symm.trans hb'))
      exact ih hs₁ h₂

/-! ## Refinement -/

/-- **Two loops whose bodies commute with a map of states and results have mapped results.** -/
theorem run_map {σ' ρ' : Type*} {body' : σ' → Option (σ' ⊕ ρ')} (f : σ → σ') (g : ρ → ρ')
    (h : ∀ s, body' (f s) = (body s).map (Sum.map f g)) (n : ℕ) (s : σ) :
    run body' n (f s) = (run body n s).map g := by
  induction n generalizing s with
  | zero => rfl
  | succ n ih =>
    rw [run, run, h]
    match body s with
    | none => rfl
    | some (Sum.inl s') => exact ih s'
    | some (Sum.inr r) => rfl

/-- Rounds that a map of states commutes with are mapped one by one. -/
theorem Steps.map {σ' ρ' : Type*} {body' : σ' → Option (σ' ⊕ ρ')} (f : σ → σ')
    (hf : ∀ s t, body s = some (Sum.inl t) → body' (f s) = some (Sum.inl (f t))) {s s' : σ}
    (h : Steps body s s') : Steps body' (f s) (f s') := by
  induction h with
  | refl => exact .refl _
  | next hb _ ih => exact .next (hf _ _ hb) ih

/-! ## Rules -/

/-- **Invariant rule.** What every round preserves holds of every state reached. -/
theorem Steps.invariant {I : σ → Prop} {s s' : σ} (h : Steps body s s') (hs : I s)
    (hstep : ∀ s s', I s → body s = some (Sum.inl s') → I s') : I s' := by
  induction h with
  | refl => exact hs
  | next hb _ ih => exact ih (hstep _ _ hs hb)

/-- **Partial correctness.** An invariant that every round keeps and that gives the postcondition
when the loop is left gives the postcondition of every result. -/
theorem Evals.post {I : σ → Prop} {Q : ρ → Prop} {s : σ} {r : ρ} (h : Evals body s r) (hs : I s)
    (hstep : ∀ s s', I s → body s = some (Sum.inl s') → I s')
    (hstop : ∀ s r, I s → body s = some (Sum.inr r) → Q r) : Q r := by
  obtain ⟨s', hsteps, hb⟩ := h.exists_stop
  exact hstop s' r (hsteps.invariant hs hstep) hb

/-- **Total correctness.** If under the invariant every round is free of faults, either stops with
the postcondition or keeps the invariant and drops the variant, then more rounds than the variant
are enough for a result with the postcondition. -/
theorem run_total {I : σ → Prop} {Q : ρ → Prop} (variant : σ → ℕ)
    (hround : ∀ s, I s → (∃ r, body s = some (Sum.inr r) ∧ Q r) ∨
      ∃ s', body s = some (Sum.inl s') ∧ I s' ∧ variant s' < variant s)
    {n : ℕ} {s : σ} (hs : I s) (hn : variant s < n) : ∃ r, run body n s = some r ∧ Q r := by
  induction n generalizing s with
  | zero => omega
  | succ n ih =>
    rcases hround s hs with ⟨r, hb, hq⟩ | ⟨s', hb, hs', hlt⟩
    · exact ⟨r, run_stop hb, hq⟩
    · rw [run_next hb]
      exact ih hs' (by omega)

end Loop

end Muduo
