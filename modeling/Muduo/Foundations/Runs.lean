import Mathlib.Data.List.Infix
import Mathlib.Data.Option.Basic

/-! # Runs of a labelled machine

A machine is a partial step function `step : σ → α → Option σ`: in state `s` the action `a` is not
possible, or leads to one state.

* **`Runs.exec step s as`** performs the actions `as` in order;
* **`Runs.Guarded step G s as`** says that every action of the run is taken in a state where `G`
  allows it;
* **`Runs.exec_invariant`** is the rule for what holds after every guarded run;
* **`Runs.exec_simulates`** is the rule for guarded runs that an abstract run goes along with, and
  `Runs.exec_safe` the one for guarded runs that never get stuck;
* **`Runs.guarded_or_of_each`** and `Runs.guarded_or` are the rules for what an action that is not
  allowed breaks for good;
* **`Runs.always_each_iff_guarded`** is the rule for what holds in a run, after its actions and
  around them, exactly if it is guarded; `Runs.always_iff_guarded` and `Runs.each_iff_guarded` are
  its halves;
* **`Runs.views_iff_guarded`** is the rule for what goes along with an abstract machine exactly if
  it is guarded;
* **`Runs.Since step G b s as`** says that `b` was taken and `G` allows every action after it;
  `Runs.flag_iff_since` is the rule for a flag that `b` clears;
* **`Runs.Justified J log`** says that every event of a log is allowed after the events before
  it. -/

namespace Muduo

namespace Runs

variable {σ α : Type*} (step : σ → α → Option σ)

/-- The state after the actions `as`, taken in order from `s`. -/
def exec (s : σ) (as : List α) : Option σ := as.foldlM step s

variable {step}

theorem exec_cons (s : σ) (a : α) (as : List α) :
    exec step s (a :: as) = (step s a).bind fun t => exec step t as := rfl

theorem exec_concat (s : σ) (as : List α) (a : α) :
    exec step s (as ++ [a]) = (exec step s as).bind fun t => step t a := by
  rw [exec, List.foldlM_append]
  simp only [List.foldlM_cons, List.foldlM_nil, bind_pure]
  rfl

/-- The last action of a run. -/
theorem exec_concat_eq_some {s u : σ} {as : List α} {a : α} :
    exec step s (as ++ [a]) = some u ↔ ∃ t, exec step s as = some t ∧ step t a = some u := by
  rw [exec, List.foldlM_append]
  simp only [List.foldlM_cons, List.foldlM_nil, bind_pure]
  exact Option.bind_eq_some_iff

/-- A run in two parts. -/
theorem exec_append_eq_some {s u : σ} {as bs : List α} :
    exec step s (as ++ bs) = some u ↔ ∃ t, exec step s as = some t ∧ exec step t bs = some u := by
  rw [exec, List.foldlM_append]
  exact Option.bind_eq_some_iff

/-- A run reaches a state after each of its actions. -/
theorem exists_exec_of_done {s u : σ} {as done : List α} (h : exec step s as = some u)
    (hdone : done <+: as) : ∃ t, exec step s done = some t := by
  obtain ⟨rest, rfl⟩ := hdone
  rw [exec, List.foldlM_append] at h
  obtain ⟨t, ht, -⟩ := Option.bind_eq_some_iff.mp h
  exact ⟨t, ht⟩

variable (step) in
/-- Every action of the run is taken in a state in which `G` allows it. -/
def Guarded (G : σ → α → Prop) (s : σ) (as : List α) : Prop :=
  ∀ done a, done ++ [a] <+: as → ∀ t, exec step s done = some t → G t a

theorem Guarded.of_done {G : σ → α → Prop} {s : σ} {as done : List α} (h : Guarded step G s as)
    (hdone : done <+: as) : Guarded step G s done :=
  fun d a hd => h d a (hd.trans hdone)

theorem guarded_nil {G : σ → α → Prop} {s : σ} : Guarded step G s [] := by
  intro done a hd
  simp at hd

/-- A guard that does not look at the state. -/
theorem guarded_of_forall {P : α → Prop} {s : σ} {as : List α} (h : ∀ a ∈ as, P a) :
    Guarded step (fun _ a => P a) s as := by
  intro done a hd t _
  exact h a (hd.subset (List.mem_append_right _ List.mem_cons_self))

/-- In a run that is possible, it allows every action. -/
theorem guarded_iff_forall {P : α → Prop} {s u : σ} {as : List α} (h : exec step s as = some u) :
    Guarded step (fun _ a => P a) s as ↔ ∀ a ∈ as, P a := by
  refine ⟨fun hg a ha => ?_, guarded_of_forall⟩
  obtain ⟨done, rest, rfl⟩ := List.append_of_mem ha
  obtain ⟨t, ht⟩ := exists_exec_of_done h (List.prefix_append done (a :: rest))
  exact hg done a ⟨rest, by simp⟩ t ht

/-- One more action may be taken where it is allowed. -/
theorem Guarded.concat {G : σ → α → Prop} {s : σ} {as : List α} {a : α} (h : Guarded step G s as)
    (ha : ∀ t, exec step s as = some t → G t a) : Guarded step G s (as ++ [a]) := by
  intro done b hd
  rcases List.prefix_concat_iff.mp hd with heq | hd'
  · obtain ⟨rfl, rfl⟩ : done = as ∧ b = a := by simpa using heq
    exact ha
  · exact h done b hd'

/-- So may actions that are allowed everywhere. -/
theorem Guarded.append {G : σ → α → Prop} {s : σ} {as bs : List α} (h : Guarded step G s as)
    (hbs : ∀ b ∈ bs, ∀ t, G t b) : Guarded step G s (as ++ bs) := by
  induction bs using List.reverseRecOn with
  | nil => rwa [List.append_nil]
  | append_singleton bs b ih =>
    rw [List.forall_mem_append] at hbs
    rw [← List.append_assoc]
    exact (ih hbs.1).concat fun t _ => hbs.2 b List.mem_cons_self t

theorem guarded_cons {G : σ → α → Prop} {s : σ} {a : α} {as : List α} :
    Guarded step G s (a :: as) ↔ G s a ∧ ∀ t ∈ step s a, Guarded step G t as := by
  refine ⟨fun h => ⟨h [] a ⟨as, rfl⟩ s rfl, fun t ht done b hd u hu => ?_⟩,
    fun h done b hd u hu => ?_⟩
  · refine h (a :: done) b ((List.prefix_cons_inj a).mpr hd) u ?_
    rw [exec_cons, ht]
    exact hu
  · cases done with
    | nil =>
      cases hu
      obtain rfl : b = a := (List.cons_prefix_cons.mp hd).1
      exact h.1
    | cons c done =>
      obtain ⟨rfl, hrest⟩ := List.cons_prefix_cons.mp hd
      rw [exec_cons] at hu
      obtain ⟨t, ht, hu⟩ := Option.bind_eq_some_iff.mp hu
      exact h.2 t ht done b hrest u hu

/-- Whether a run is guarded can be computed. -/
instance Guarded.decidable {G : σ → α → Prop} [∀ s a, Decidable (G s a)] :
    ∀ (s : σ) (as : List α), Decidable (Guarded step G s as)
  | _, [] => isTrue guarded_nil
  | s, a :: as =>
    have : ∀ t, Decidable (Guarded step G t as) := fun t => Guarded.decidable t as
    decidable_of_iff (G s a ∧ ∀ t ∈ step s a, Guarded step G t as) guarded_cons.symm

/-- **Invariant rule.** What holds initially and is preserved by every allowed action holds after
every guarded run. -/
theorem exec_invariant {G : σ → α → Prop} {I : σ → Prop} {s u : σ} {as : List α} (h0 : I s)
    (hstep : ∀ t a t', I t → G t a → step t a = some t' → I t') (hg : Guarded step G s as)
    (h : exec step s as = some u) : I u := by
  induction as using List.reverseRecOn generalizing u with
  | nil =>
    cases h
    exact h0
  | append_singleton as a ih =>
    obtain ⟨t, ht, hlast⟩ := exec_concat_eq_some.mp h
    exact hstep t a u (ih (hg.of_done (List.prefix_append _ _)) ht)
      (hg as a List.prefix_rfl t ht) hlast

/-- What every action preserves holds after every run. -/
theorem exec_induction {I : σ → Prop} {s u : σ} {as : List α} (h0 : I s)
    (hstep : ∀ t a t', I t → step t a = some t' → I t') (h : exec step s as = some u) : I u :=
  exec_invariant (G := fun _ _ => True) h0 (fun t a t' ht _ hs => hstep t a t' ht hs)
    (fun _ _ _ _ _ => trivial) h

variable (step) in
/-- The action `b` has been taken, and `G` allows every action after it. -/
def Since (G : σ → α → Prop) (b : α) (s : σ) (as : List α) : Prop :=
  ∃ done rest t, as = done ++ b :: rest ∧ exec step s (done ++ [b]) = some t ∧
    Guarded step G t rest

/-- One more action is `b`, or it is allowed after an earlier one. -/
theorem since_concat {G : σ → α → Prop} {b : α} {s t u : σ} {as : List α} {a : α}
    (h : exec step s as = some t) (ha : step t a = some u) :
    Since step G b s (as ++ [a]) ↔ a = b ∨ Since step G b s as ∧ G t a := by
  constructor
  · rintro ⟨done, rest, v, heq, hv, hg⟩
    rcases List.eq_nil_or_concat rest with rfl | ⟨rest, c, rfl⟩
    · exact .inl (List.concat_inj.mp (by simpa using heq)).2
    · -- the last action is one of those after `b`
      have hsplit : as ++ [a] = (done ++ b :: rest) ++ [c] := by simpa using heq
      obtain ⟨rfl, hlast⟩ := List.append_inj' hsplit rfl
      cases hlast
      have hrest : exec step v rest = some t := by
        have hall : exec step s ((done ++ [b]) ++ rest) = some t := by simpa using h
        obtain ⟨w, hw, hrest⟩ := exec_append_eq_some.mp hall
        cases hv.symm.trans hw
        exact hrest
      rw [List.concat_eq_append] at hg
      exact .inr ⟨⟨done, rest, v, rfl, hv, hg.of_done (List.prefix_append _ _)⟩,
        hg rest a List.prefix_rfl t hrest⟩
  · rintro (rfl | ⟨⟨done, rest, v, rfl, hv, hg⟩, hGa⟩)
    · exact ⟨as, [], u, rfl, exec_concat_eq_some.mpr ⟨t, h, ha⟩, guarded_nil⟩
    · refine ⟨done, rest ++ [a], v, by simp, hv, hg.concat fun w hw => ?_⟩
      have hall : exec step s ((done ++ [b]) ++ rest) = some w :=
        exec_append_eq_some.mpr ⟨v, hv, hw⟩
      have heq : (done ++ [b]) ++ rest = done ++ b :: rest := by simp
      rw [heq] at hall
      cases h.symm.trans hall
      exact hGa

/-- **What a flag says of the run.** If `b` clears a flag, an action that `G` does not allow sets
it, and the other ones leave it as it is, then it is clear exactly if `b` has been taken and
everything after it was allowed, or everything was. -/
theorem flag_iff_since {G : σ → α → Prop} {I : σ → Prop} {b : α} {f : σ → Bool} {s u : σ}
    {as : List α} (hI : I s) (hinv : ∀ t a t', I t → step t a = some t' → I t')
    (hclear : ∀ t t', I t → step t b = some t' → f t' = false)
    (hset : ∀ t a t', I t → a ≠ b → ¬G t a → step t a = some t' → f t' = true)
    (hkeep : ∀ t a t', I t → a ≠ b → G t a → step t a = some t' → f t' = f t) (hs : f s = false)
    (h : exec step s as = some u) : f u = false ↔ Since step G b s as ∨ Guarded step G s as := by
  induction as using List.reverseRecOn generalizing u with
  | nil =>
    cases h
    exact iff_of_true hs (.inr guarded_nil)
  | append_singleton as a ih =>
    obtain ⟨t, ht, ha⟩ := exec_concat_eq_some.mp h
    have hIt : I t := exec_induction hI hinv ht
    by_cases hb : a = b
    · subst hb
      exact iff_of_true (hclear t u hIt ha) (.inl ((since_concat ht ha).mpr (.inl rfl)))
    · by_cases hG : G t a
      · rw [hkeep t a u hIt hb hG ha, ih ht, since_concat ht ha]
        refine or_congr ⟨fun hsince => .inr ⟨hsince, hG⟩, fun hor => (hor.resolve_left hb).1⟩
          ⟨fun hg => hg.concat fun t' ht' => ?_, fun hg => hg.of_done (List.prefix_append _ _)⟩
        cases ht.symm.trans ht'
        exact hG
      · refine iff_of_false (by rw [hset t a u hIt hb hG ha]; nofun) ?_
        rintro (hsince | hg)
        · exact hG (((since_concat ht ha).mp hsince).resolve_left hb).2
        · exact hG (hg as a List.prefix_rfl t ht)

/-- **Simulation rule.** If every allowed action is possible and does to `R`-related states what `f`
does to the abstract one, then every guarded run is possible and ends in a state related to the end
of the abstract run. -/
theorem exec_simulates {τ : Type*} {G : σ → α → Prop} {R : σ → τ → Prop} {f : τ → α → τ} {s : σ}
    {t : τ} {as : List α} (h0 : R s t)
    (hstep : ∀ s t a, R s t → G s a → ∃ s', step s a = some s' ∧ R s' (f t a))
    (hg : Guarded step G s as) : ∃ s', exec step s as = some s' ∧ R s' (as.foldl f t) := by
  induction as generalizing s t with
  | nil => exact ⟨s, rfl, h0⟩
  | cons a as ih =>
    obtain ⟨ha, hg⟩ := guarded_cons.mp hg
    obtain ⟨s', hs', hR⟩ := hstep s t a h0 ha
    obtain ⟨u, hu, hRu⟩ := ih hR (hg s' hs')
    refine ⟨u, ?_, hRu⟩
    rw [exec_cons, hs', Option.bind_some]
    exact hu

/-- **Refinement rule.** If a view of the state makes every step a step of another machine, then it
makes every run a run of it. -/
theorem exec_map {τ β : Type*} {step' : τ → β → Option τ} {f : σ → τ} {g : α → β}
    (hstep : ∀ s a u, step s a = some u → step' (f s) (g a) = some (f u)) {s u : σ} {as : List α}
    (h : exec step s as = some u) : exec step' (f s) (as.map g) = some (f u) := by
  induction as generalizing s with
  | nil =>
    cases h
    rfl
  | cons a as ih =>
    rw [exec_cons] at h
    obtain ⟨t, ht, hu⟩ := Option.bind_eq_some_iff.mp h
    rw [List.map_cons, exec_cons, hstep s a t ht, Option.bind_some]
    exact ih hu

/-- **Safety rule.** If every allowed action is possible and keeps `I`, then every guarded run is
possible and ends in a state with `I`. -/
theorem exec_safe {G : σ → α → Prop} {I : σ → Prop} {s : σ} {as : List α} (h0 : I s)
    (hstep : ∀ s a, I s → G s a → ∃ s', step s a = some s' ∧ I s') (hg : Guarded step G s as) :
    ∃ s', exec step s as = some s' ∧ I s' :=
  exec_simulates (R := fun s (_ : Unit) => I s) (f := fun t _ => t) (t := ()) h0
    (fun s _ a hs ha => hstep s a hs ha) hg

variable (step) in
/-- `R` relates the states before and after every action of the run. -/
def Each (R : σ → α → σ → Prop) (s : σ) (as : List α) : Prop :=
  ∀ done a, done ++ [a] <+: as →
    ∀ t t', exec step s done = some t → step t a = some t' → R t a t'

theorem Each.of_append {R : σ → α → σ → Prop} {s : σ} {as bs : List α}
    (h : Each step R s (as ++ bs)) : Each step R s as :=
  fun done a hd => h done a (hd.trans (List.prefix_append _ _))

/-- **A run is guarded, or something has broken.** If an action that is not allowed breaks
something, and that stays broken as long as `R` holds, then a run with `R` around its actions that
breaks nothing is guarded. -/
theorem guarded_or_of_each {G : σ → α → Prop} {R : σ → α → σ → Prop} {I J : σ → Prop} {s u : σ}
    {as : List α} (h0 : I s) (hinv : ∀ t a t', I t → step t a = some t' → I t')
    (hbreak : ∀ t a t', I t → ¬ G t a → step t a = some t' → J t')
    (hkeep : ∀ t a t', I t → J t → R t a t' → step t a = some t' → J t')
    (heach : Each step R s as) (h : exec step s as = some u) : Guarded step G s as ∨ J u := by
  induction as using List.reverseRecOn generalizing u with
  | nil => exact .inl guarded_nil
  | append_singleton as a ih =>
    obtain ⟨t, ht, hlast⟩ := exec_concat_eq_some.mp h
    have hI : I t := exec_induction h0 hinv ht
    rcases ih heach.of_append ht with hg | hJ
    · by_cases ha : G t a
      · refine .inl (hg.concat fun t' ht' => ?_)
        cases ht.symm.trans ht'
        exact ha
      · exact .inr (hbreak t a u hI ha hlast)
    · exact .inr (hkeep t a u hI hJ (heach as a List.prefix_rfl t u ht hlast) hlast)

/-- What stays broken in any case. -/
theorem guarded_or {G : σ → α → Prop} {I J : σ → Prop} {s u : σ} {as : List α} (h0 : I s)
    (hinv : ∀ t a t', I t → step t a = some t' → I t')
    (hbreak : ∀ t a t', I t → ¬ G t a → step t a = some t' → J t')
    (hkeep : ∀ t a t', I t → J t → step t a = some t' → J t') (h : exec step s as = some u) :
    Guarded step G s as ∨ J u :=
  guarded_or_of_each (R := fun _ _ _ => True) h0 hinv hbreak
    (fun t a t' hI hJ _ hs => hkeep t a t' hI hJ hs) (fun _ _ _ _ _ _ _ => trivial) h

/-- What an invariant of the guarded runs says around an action holds in every guarded run. -/
theorem Guarded.each {G : σ → α → Prop} {I : σ → Prop} {R : σ → α → σ → Prop} {s : σ}
    {as : List α} (h0 : I s) (hstep : ∀ t a t', I t → G t a → step t a = some t' → I t')
    (hR : ∀ t a t', I t → G t a → step t a = some t' → R t a t') (hg : Guarded step G s as) :
    Each step R s as := by
  intro done a hd t t' ht hs
  have hdone : Guarded step G s done := hg.of_done ((List.prefix_append _ _).trans hd)
  exact hR t a t' (exec_invariant h0 hstep hdone ht) (hg done a hd t ht) hs

variable (step) in
/-- `P` holds initially and after every action of the run. -/
def Always (P : σ → Prop) (s : σ) (as : List α) : Prop :=
  ∀ done, done <+: as → ∀ t, exec step s done = some t → P t

/-- **The exact guard of states and actions.** If, in the states that can be reached, exactly the
actions that `G` allows keep `P` and do what `R` says, then `P` always holds in a run and `R` around
each of its actions if and only if `G` allows all of them. -/
theorem always_each_iff_guarded {G : σ → α → Prop} {I P : σ → Prop} {R : σ → α → σ → Prop} {s u : σ}
    {as : List α} (hI : I s) (hP : P s) (hinv : ∀ t a t', I t → step t a = some t' → I t')
    (hkeep : ∀ t a t', I t → P t → step t a = some t' → (P t' ∧ R t a t' ↔ G t a))
    (h : exec step s as = some u) :
    Always step P s as ∧ Each step R s as ↔ Guarded step G s as := by
  have hreach {done : List α} {t : σ} (ht : exec step s done = some t) : I t :=
    exec_induction hI hinv ht
  refine ⟨fun ⟨hall, heach⟩ done a hd t ht => ?_, fun hg => ?_⟩
  · -- the run goes on after `a`, and what it keeps there says that `a` was allowed
    obtain ⟨t', ht'⟩ := exists_exec_of_done h hd
    obtain ⟨t₀, ht₀, hs⟩ := exec_concat_eq_some.mp ht'
    cases ht.symm.trans ht₀
    exact (hkeep t a t' (hreach ht) (hall done ((List.prefix_append _ _).trans hd) t ht) hs).mp
      ⟨hall _ hd t' ht', heach done a hd t t' ht hs⟩
  · -- the guard keeps `P` along the run, and `R` around each action follows from it
    have hall : Always step P s as := fun done hd t ht =>
      (exec_invariant (I := fun t => I t ∧ P t) ⟨hI, hP⟩
        (fun t a t' hIP hGa hs => ⟨hinv t a t' hIP.1 hs, ((hkeep t a t' hIP.1 hIP.2 hs).mpr hGa).1⟩)
        (hg.of_done hd) ht).2
    refine ⟨hall, fun done a hd t t' ht hs => ?_⟩
    exact ((hkeep t a t' (hreach ht) (hall done ((List.prefix_append _ _).trans hd) t ht) hs).mpr
      (hg done a hd t ht)).2

/-- **The exact guard.** If, in the states that can be reached, exactly the actions that `G` allows
keep `P`, then `P` always holds in a run if and only if `G` allows all its actions. -/
theorem always_iff_guarded {G : σ → α → Prop} {I P : σ → Prop} {s u : σ} {as : List α} (hI : I s)
    (hP : P s) (hinv : ∀ t a t', I t → step t a = some t' → I t')
    (hkeep : ∀ t a t', I t → P t → step t a = some t' → (P t' ↔ G t a))
    (h : exec step s as = some u) : Always step P s as ↔ Guarded step G s as := by
  have hboth : Always step P s as ∧ Each step (fun _ _ _ => True) s as ↔ Guarded step G s as :=
    always_each_iff_guarded hI hP hinv
      (fun t a t' ht hPt hs => (and_iff_left trivial).trans (hkeep t a t' ht hPt hs)) h
  exact (and_iff_left fun _ _ _ _ _ _ _ => trivial).symm.trans hboth

/-- **The exact guard of each action.** If, in the states that can be reached, `R` holds around
exactly the actions that `G` allows, then it holds around each action of a run if and only if `G`
allows all of them. -/
theorem each_iff_guarded {G : σ → α → Prop} {I : σ → Prop} {R : σ → α → σ → Prop} {s u : σ}
    {as : List α} (hI : I s) (hinv : ∀ t a t', I t → step t a = some t' → I t')
    (hR : ∀ t a t', I t → step t a = some t' → (R t a t' ↔ G t a)) (h : exec step s as = some u) :
    Each step R s as ↔ Guarded step G s as := by
  have hboth : Always step (fun _ => True) s as ∧ Each step R s as ↔ Guarded step G s as :=
    always_each_iff_guarded hI trivial hinv
      (fun t a t' ht _ hs => (and_iff_right trivial).trans (hR t a t' ht hs)) h
  exact (and_iff_right fun _ _ _ _ => trivial).symm.trans hboth

/-- **The exact guard of a refinement.** If, in the states that can be reached, exactly the actions
that `G` allows do to the view of the state what the abstract machine does, then the two machines go
along together, and stop together, if and only if `G` allows all the actions. -/
theorem views_iff_guarded {τ : Type*} {spec : τ → α → Option τ} {view : σ → τ} {G : σ → α → Prop}
    {I : σ → Prop} {s : σ} {as : List α} (hI : I s)
    (hinv : ∀ t a t', I t → step t a = some t' → I t')
    (hview : ∀ t a, I t → ((step t a).map view = spec (view t) a ↔ G t a)) :
    (∀ done, done <+: as → (exec step s done).map view = exec spec (view s) done) ↔
      Guarded step G s as := by
  constructor
  · intro h done a hd t ht
    have hdone := h done ((List.prefix_append _ _).trans hd)
    have hnext := h (done ++ [a]) hd
    rw [ht, Option.map_some] at hdone
    rw [exec_concat, exec_concat, ht, ← hdone, Option.bind_some, Option.bind_some] at hnext
    exact (hview t a (exec_induction hI hinv ht)).mp hnext
  · intro hg done hd
    induction done using List.reverseRecOn with
    | nil => rfl
    | append_singleton done a ih =>
      have hdone := ih ((List.prefix_append _ _).trans hd)
      rw [exec_concat, exec_concat, ← hdone]
      cases ht : exec step s done with
      | none => rfl
      | some t => exact (hview t a (exec_induction hI hinv ht)).mpr (hg done a hd t ht)

/-- Every event of the log is allowed by `J` after the events before it. -/
def Justified {ε : Type*} (J : List ε → ε → Prop) (log : List ε) : Prop :=
  ∀ done e, done ++ [e] <+: log → J done e

theorem justified_nil {ε : Type*} {J : List ε → ε → Prop} : Justified J [] := by
  intro done e hd
  simp at hd

/-- A log goes on with an event that is allowed. -/
theorem Justified.concat {ε : Type*} {J : List ε → ε → Prop} {log : List ε} {e : ε}
    (h : Justified J log) (he : J log e) : Justified J (log ++ [e]) := by
  intro done b hd
  rcases List.prefix_concat_iff.mp hd with heq | hd'
  · obtain ⟨rfl, rfl⟩ : done = log ∧ b = e := by simpa using heq
    exact he
  · exact h done b hd'

theorem Justified.mono {ε : Type*} {J : List ε → ε → Prop} {log log' : List ε}
    (h : Justified J log') (hlog : log <+: log') : Justified J log :=
  fun done e hd => h done e (hd.trans hlog)

/-- The last event of a log is allowed. -/
theorem Justified.last {ε : Type*} {J : List ε → ε → Prop} {log : List ε} {e : ε}
    (h : Justified J (log ++ [e])) : J log e :=
  h log e List.prefix_rfl

/-- An event that never follows another of its kind happens at most once. -/
theorem Justified.countP_le_one {ε : Type*} {p : ε → Bool} {log : List ε}
    (h : Justified (fun done e => p e = true → ∀ b ∈ done, p b = false) log) :
    log.countP p ≤ 1 := by
  induction log using List.reverseRecOn with
  | nil => exact Nat.zero_le 1
  | append_singleton log e ih =>
    rw [List.countP_append, List.countP_singleton]
    by_cases he : p e = true
    · have h0 : log.countP p = 0 := by
        rw [List.countP_eq_zero]
        intro b hb
        rw [h log e List.prefix_rfl he b hb]
        exact Bool.false_ne_true
      rw [h0, if_pos he]
    · rw [if_neg he]
      exact ih fun done b hd => h done b (hd.trans (List.prefix_append _ _))

end Runs

end Muduo
