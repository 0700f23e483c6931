import Muduo.Base.ThreadPoolTasks

/-! # `ThreadPool::stop` releases everyone

`stop` clears `running_` before it locks `mutex_` for its two calls of `notifyAll`. A thread that
has read the old flag is inside the lock until it waits, so it waits before these calls: after them
nobody is left who has not been notified, and nobody waits again.

**`TaskPool.releases_of_exec`** states this for every run, and that each thread of the pool then
starts at most one more task and can always go on until it has finished, unless it executes a
task. -/

namespace Muduo

namespace Pc

variable {τ : Type*}

/-- It has read that the pool runs, and is about to wait. -/
def entering : Pc τ → Bool
  | run _ .enter => true
  | take .enter => true
  | _ => false

/-- It is in `wait()`. -/
def waits : Pc τ → Bool
  | run _ .wait => true
  | take .wait => true
  | _ => false

/-- It executes `stop`. -/
def stopping : Pc τ → Bool
  | stop _ _ => true
  | _ => false

/-- It executes code of the pool, and does not wait for other threads in `stop`. -/
def inPool : Pc τ → Bool
  | idle _ => false
  | stop _ .join => false
  | finished => false
  | _ => true

/-- The tasks that it may start before it tests `running_` again. -/
def pending : Pc τ → ℕ
  | take (.unlock task) => task.toList.length
  | take _ => 1
  | returned task => task.toList.length
  | _ => 0

/-- A bound on its steps until it leaves the code of the pool, if the pool does not run. -/
def remaining : Pc τ → ℕ
  | idle _ => 0
  | run _ .lock => 7
  | run _ .test => 6
  | run _ .testRunning => 5
  | run _ .enter => 8
  | run _ .wait => 7
  | run _ .running => 4
  | run _ .push => 3
  | run _ .notify => 2
  | run _ .unlock => 1
  | stop _ .lock => 4
  | stop _ .notifyAll => 3
  | stop _ .unlock => 2
  | stop _ .join => 1
  | loop => 1
  | take .lock => 7
  | take .test => 6
  | take .testRunning => 5
  | take .enter => 8
  | take .wait => 7
  | take .pop => 4
  | take (.unlock _) => 3
  | returned _ => 2
  | finished => 0

/-- If the pool does not run, a thread in the code of the pool at `q` is nearer to its end at
`p`. -/
def Declines (q p : Pc τ) : Prop :=
  ((∃ who, q = .idle who) ∨ p.remaining < q.remaining) ∧ p.pending ≤ q.pending

end Pc

namespace TaskPool

variable {θ τ : Type*} [DecidableEq θ]

/-- The thread that acts. -/
def Action.thread : Action θ τ → θ
  | run t _ => t
  | stop t => t
  | next t _ => t
  | taskReturns t => t
  | taskThrows t => t

/-- The thread makes a step in the code of the pool. -/
def Action.isNext (t : θ) : Action θ τ → Bool
  | next u _ => u = t
  | _ => false

/-- The thread calls the pool, or returns to it from a task. -/
def Action.isCall (t : θ) (a : Action θ τ) : Bool := decide (a.thread = t) && !a.isNext t

/-! ## What is promised -/

/-- What holds after the steps `bs`, which follow the calls of `notifyAll` that led to `u`. -/
structure Releases (threads : List θ) (u : TaskPool θ τ) (bs : List (Action θ τ))
    (v : TaskPool θ τ) : Prop where
  /-- Nobody waits without having been notified. -/
  notBlocked : v.notEmpty.waiting = ∅ ∧ v.notFull.waiting = ∅
  /-- Who is still in `wait()` has been notified. -/
  notified : ∀ t, (v.pc t = .take .wait → t ∈ v.notEmpty.notified) ∧
    ∀ c, v.pc t = .run c .wait → t ∈ v.notFull.notified
  /-- Nobody begins to wait. -/
  neverBlocks : ∀ a w, v.step a = some w → ∀ t, (w.pc t).waits = true → (v.pc t).waits = true
  /-- A thread of the pool starts at most one more task. -/
  oneMore : ∀ t ∈ threads, (v.executedBy t).length ≤ (u.executedBy t).length + 1
  /-- Between two calls a thread makes at most eight steps. -/
  bounded : ∀ t, bs.countP (Action.isNext t) + (v.pc t).remaining ≤
    8 * (bs.countP (Action.isCall t) + 1)
  /-- A thread in the code of the pool can go on, or the one that holds the lock can. -/
  goesOn : ∀ t, (v.pc t).inPool = true →
    ∃ w, (w = t ∨ v.mutex = some w) ∧ (v.step (.next w ∅)).isSome = true
  /-- The threads of the pool are joined when they have finished. -/
  joins : (∀ t ∈ threads, v.pc t = .finished) → ∀ t who, v.pc t = .stop who .join →
    (v.step (.next t ∅)).isSome = true

/-! ## What one step can do -/

/-- The thread `t` goes on at `p`. Nobody begins to wait without having been about to, and nobody is
about to without having seen that the pool runs. -/
structure Moves (t : θ) (p : Pc τ) (s s' : TaskPool θ τ) : Prop where
  pc : s'.pc = Function.update s.pc t p
  running : s'.running = true → s.running = true
  threads : s'.threads = s.threads
  stop : ∀ who q, p = .stop who q → s'.running = false ∨ ∃ who q, s.pc t = .stop who q
  notEmpty : p ≠ .take .wait ∧ s.notEmpty.Keeps t s'.notEmpty ∨
    s.pc t = .take .enter ∧ s'.notEmpty = s.notEmpty.wait t
  notFull : (∀ c, p ≠ .run c .wait) ∧ s.notFull.Keeps t s'.notFull ∨
    (∃ c, s.pc t = .run c .enter) ∧ s'.notFull = s.notFull.wait t
  enter : p.entering = true → s.running = true
  declines : s.running = false → s'.aborted = false → (s.pc t).Declines p
  executed : s'.executed = s.executed ∨
    (∃ f, s'.executed = s.executed ++ [(t, f)]) ∧ p.pending < (s.pc t).pending ∨ s.threads = []

variable {s s' : TaskPool θ τ} {t u : θ} {p : Pc τ}

/-- A step to a place where the thread neither waits nor is about to. -/
theorem moves_of_not (hw : p.waits = false) (he : p.entering = false)
    (hpc : s'.pc = Function.update s.pc t p) (hrunning : s'.running = true → s.running = true)
    (hthreads : s'.threads = s.threads)
    (hstop : p.stopping = true → s'.running = false ∨ ∃ who q, s.pc t = .stop who q)
    (ha : s.notEmpty.Keeps t s'.notEmpty) (hb : s.notFull.Keeps t s'.notFull)
    (hdeclines : s.running = false → (s.pc t).Declines p)
    (hexecuted : s'.executed = s.executed ∨ (∃ f, s'.executed = s.executed ++ [(t, f)]) ∧
      p.pending < (s.pc t).pending ∨ s.threads = []) : Moves t p s s' := by
  refine ⟨hpc, hrunning, hthreads, ?_, .inl ⟨?_, ha⟩, .inl ⟨?_, hb⟩, fun h => ?_,
    fun hr _ => hdeclines hr, hexecuted⟩
  · rintro who q rfl
    exact hstop rfl
  · rintro rfl
    cases hw
  · rintro c rfl
    cases hw
  · rw [he] at h
    cases h

/-- A step that changes neither who waits nor whether the pool runs. -/
theorem moves_goto {q : List (Option τ)} {m : Option θ} {l : List (Call τ)}
    {k : List (θ × Option τ)} {a b : Condition θ} (hp : p.waits = false)
    (hstop : ∀ who q, p = .stop who q → ∃ who q, s.pc t = .stop who q)
    (henter : p.entering = true → s.running = true)
    (hdeclines : s.running = false → (s.pc t).Declines p) (ha : s.notEmpty.Keeps t a)
    (hb : s.notFull.Keeps t b) :
    Moves t p s { s.goto t p with
      mutex := m, notEmpty := a, notFull := b, queue := q, accepted := l, taken := k } := by
  refine ⟨rfl, id, rfl, fun who q hq => .inr (hstop who q hq), .inl ⟨?_, ha⟩, .inl ⟨?_, hb⟩, henter,
    fun hr _ => hdeclines hr, .inl rfl⟩
  · rintro rfl
    cases hp
  · rintro c rfl
    cases hp

/-- Such a step to a place outside of `stop` at which the thread is not about to wait. -/
theorem moves_on {q : List (Option τ)} {m : Option θ} {l : List (Call τ)}
    {k : List (θ × Option τ)} {a b : Condition θ} (hp : p.waits = false)
    (hs : p.stopping = false) (he : p.entering = false)
    (hdeclines : s.running = false → (s.pc t).Declines p) (ha : s.notEmpty.Keeps t a)
    (hb : s.notFull.Keeps t b) :
    Moves t p s { s.goto t p with
      mutex := m, notEmpty := a, notFull := b, queue := q, accepted := l, taken := k } :=
  moves_of_not hp he rfl id rfl (fun h => absurd (hs.symm.trans h) Bool.false_ne_true) ha hb
    hdeclines (.inl rfl)

/-- A thread that fails an assertion stays where it is. -/
theorem moves_aborted (hp : (s.pc t).waits = false) (he : (s.pc t).entering = false) :
    Moves t (s.pc t) s { s with aborted := true } := by
  refine ⟨(Function.update_eq_self t s.pc).symm, id, rfl, fun who q hq => .inr ⟨who, q, hq⟩,
    .inl ⟨fun h => ?_, Condition.keeps_refl⟩, .inl ⟨fun c h => ?_, Condition.keeps_refl⟩,
    fun h => ?_, fun _ ha => absurd ha Bool.true_eq_false.mp, .inl rfl⟩
  · rw [h] at hp
    cases hp
  · rw [h] at hp
    cases hp
  · rw [he] at h
    cases h

/-- A step in `run`. -/
theorem moves_run {c : Call τ} {q : RunPc} {woken : Finset θ} (hpc : s.pc t = .run c q)
    (hs : s.run t woken c q = some s') : ∃ p, Moves t p s s' := by
  have habort {q : RunPc} (hpc : s.pc t = .run c q) (hw : (Pc.run c q).waits = false)
      (he : (Pc.run c q).entering = false) : ∃ p, Moves t p s { s with aborted := true } :=
    ⟨_, moves_aborted (hpc ▸ hw) (hpc ▸ he)⟩
  have hrefl {c : Condition θ} : c.Keeps t c := Condition.keeps_refl
  have hdown {p : Pc τ} (hr : p.remaining < (Pc.run c q).remaining) (hp : p.pending = 0) :
      s.running = false → (s.pc t).Declines p :=
    fun _ => ⟨.inr (hpc ▸ hr), hp ▸ Nat.zero_le _⟩
  cases q with
  | lock =>
    rw [run, lock, Option.ite_none_right_eq_some] at hs
    cases hs.2
    exact ⟨_, moves_on rfl rfl rfl (hdown (by simp [Pc.remaining]) rfl) hrefl hrefl⟩
  | test =>
    rw [run] at hs
    split at hs
    · cases hs
      exact ⟨_, moves_on rfl rfl rfl (hdown (by simp [Pc.remaining]) rfl) hrefl hrefl⟩
    · cases hs
      exact ⟨_, moves_on rfl rfl rfl (hdown (by simp [Pc.remaining]) rfl) hrefl hrefl⟩
    · cases hs
      exact habort hpc rfl rfl
  | testRunning =>
    cases hs
    split_ifs with hr
    · exact ⟨_, moves_goto rfl (by rintro _ _ ⟨⟩) (fun _ => hr)
        (fun hr' => absurd (hr.symm.trans hr') Bool.true_eq_false.mp) hrefl hrefl⟩
    · exact ⟨_, moves_on rfl rfl rfl (hdown (by simp [Pc.remaining]) rfl) hrefl hrefl⟩
  | enter =>
    cases hs
    refine ⟨.run c .wait, rfl, id, rfl, ?_, .inl ⟨?_, hrefl⟩, .inr ⟨⟨c, hpc⟩, rfl⟩, ?_,
      fun hr _ => hdown (by simp [Pc.remaining]) rfl hr, .inl rfl⟩
    · rintro _ _ ⟨⟩
    · rintro ⟨⟩
    · rintro ⟨⟩
  | wait =>
    rw [run, lock, Option.ite_none_right_eq_some] at hs
    cases hs.2
    exact ⟨_, moves_on rfl rfl rfl (hdown (by simp [Pc.remaining]) rfl) hrefl
      Condition.keeps_resume⟩
  | running =>
    cases hs
    split_ifs
    · exact ⟨_, moves_on rfl rfl rfl (hdown (by simp [Pc.remaining]) rfl) hrefl hrefl⟩
    · exact ⟨_, moves_on rfl rfl rfl (hdown (by simp [Pc.remaining]) rfl) hrefl hrefl⟩
  | push =>
    rw [run] at hs
    split at hs
    · cases hs
      exact ⟨_, moves_on rfl rfl rfl (hdown (by simp [Pc.remaining]) rfl) hrefl hrefl⟩
    · cases hs
      exact habort hpc rfl rfl
  | notify =>
    obtain ⟨n, hn, rfl⟩ := Option.map_eq_some_iff.mp hs
    exact ⟨_, moves_on rfl rfl rfl (hdown (by simp [Pc.remaining]) rfl)
      (Condition.keeps_notify hn) hrefl⟩
  | unlock =>
    cases hs
    exact ⟨_, moves_on rfl rfl rfl (hdown (by simp [Pc.remaining]) rfl) hrefl hrefl⟩

/-- A step in `stop`. -/
theorem moves_stop {who : Caller} {q : StopPc} (hpc : s.pc t = .stop who q)
    (hs : s.stop t who q = some s') : ∃ p, Moves t p s s' := by
  have hrefl {c : Condition θ} : c.Keeps t c := Condition.keeps_refl
  have hstop {p : Pc τ} : ∀ w r, p = .stop w r → ∃ w r, s.pc t = .stop w r :=
    fun _ _ _ => ⟨who, q, hpc⟩
  have hdown {p : Pc τ} (hr : p.remaining < (Pc.stop who q : Pc τ).remaining)
      (hp : p.pending = 0) : s.running = false → (s.pc t).Declines p :=
    fun _ => ⟨.inr (hpc ▸ hr), hp ▸ Nat.zero_le _⟩
  cases q with
  | lock =>
    rw [stop, lock, Option.ite_none_right_eq_some] at hs
    cases hs.2
    exact ⟨_, moves_goto rfl hstop (by rintro ⟨⟩) (hdown (by simp [Pc.remaining]) rfl) hrefl hrefl⟩
  | notifyAll =>
    cases hs
    exact ⟨_, moves_goto rfl hstop (by rintro ⟨⟩) (hdown (by simp [Pc.remaining]) rfl)
      Condition.keeps_wake Condition.keeps_wake⟩
  | unlock =>
    cases hs
    exact ⟨_, moves_goto rfl hstop (by rintro ⟨⟩) (hdown (by simp [Pc.remaining]) rfl) hrefl hrefl⟩
  | join =>
    rw [stop, Option.ite_none_right_eq_some] at hs
    cases hs.2
    exact ⟨_, moves_on rfl rfl rfl (hdown (by simp [Pc.remaining]) rfl) hrefl hrefl⟩

/-- A step in `take`. -/
theorem moves_take {q : TakePc τ} (hpc : s.pc t = .take q) (hs : s.take t q = some s') :
    ∃ p, Moves t p s s' := by
  have hrefl {c : Condition θ} : c.Keeps t c := Condition.keeps_refl
  have hdown {p : Pc τ} (hr : p.remaining < (Pc.take q).remaining)
      (hp : p.pending ≤ (Pc.take q).pending) : s.running = false → (s.pc t).Declines p :=
    fun _ => ⟨.inr (hpc ▸ hr), hpc ▸ hp⟩
  cases q with
  | lock =>
    rw [take, lock, Option.ite_none_right_eq_some] at hs
    cases hs.2
    exact ⟨_, moves_on rfl rfl rfl (hdown (by simp [Pc.remaining]) le_rfl) hrefl hrefl⟩
  | test =>
    cases hs
    split_ifs
    · exact ⟨_, moves_on rfl rfl rfl (hdown (by simp [Pc.remaining]) le_rfl) hrefl hrefl⟩
    · exact ⟨_, moves_on rfl rfl rfl (hdown (by simp [Pc.remaining]) le_rfl) hrefl hrefl⟩
  | testRunning =>
    cases hs
    split_ifs with hr
    · exact ⟨_, moves_goto rfl (by rintro _ _ ⟨⟩) (fun _ => hr)
        (fun hr' => absurd (hr.symm.trans hr') Bool.true_eq_false.mp) hrefl hrefl⟩
    · exact ⟨_, moves_on rfl rfl rfl (hdown (by simp [Pc.remaining]) le_rfl) hrefl hrefl⟩
  | enter =>
    cases hs
    refine ⟨.take .wait, rfl, id, rfl, ?_, .inr ⟨hpc, rfl⟩, .inl ⟨?_, hrefl⟩, ?_,
      fun hr _ => hdown (by simp [Pc.remaining]) le_rfl hr, .inl rfl⟩
    · rintro _ _ ⟨⟩
    · rintro _ ⟨⟩
    · rintro ⟨⟩
  | wait =>
    rw [take, lock, Option.ite_none_right_eq_some] at hs
    cases hs.2
    exact ⟨_, moves_on rfl rfl rfl (hdown (by simp [Pc.remaining]) le_rfl)
      Condition.keeps_resume hrefl⟩
  | pop =>
    rw [take] at hs
    split at hs
    · cases hs
      exact ⟨_, moves_on rfl rfl rfl
        (hdown (by simp [Pc.remaining]) (by simp [Pc.pending])) hrefl hrefl⟩
    · next x rest hq =>
      cases hs
      -- one task at most
      have hx : x.toList.length ≤ 1 := by cases x <;> simp
      exact ⟨_, moves_on rfl rfl rfl (hdown (by simp [Pc.remaining]) hx) hrefl hrefl⟩
  | unlock task =>
    cases hs
    exact ⟨_, moves_on rfl rfl rfl (hdown (by simp [Pc.remaining]) le_rfl) hrefl hrefl⟩

/-- **Every step** is a move of the thread that acts. -/
theorem exists_moves {a : Action θ τ} (hs : s.step a = some s') : ∃ p, Moves a.thread p s s' := by
  have hrefl {t : θ} {c : Condition θ} : c.Keeps t c := Condition.keeps_refl
  have hrunning : ¬s.aborted = true := by
    intro ha
    rw [step.eq_def, if_pos ha] at hs
    cases hs
  -- from the user's code everything begins anew
  have hanew {t : θ} {who : Caller} {p : Pc τ} (hpc : s.pc t = .idle who) (hp : p.pending = 0) :
      s.running = false → (s.pc t).Declines p :=
    fun _ => ⟨.inl ⟨who, hpc⟩, hp ▸ Nat.zero_le _⟩
  cases a with
  | run t f =>
    rw [step, if_neg hrunning] at hs
    split at hs
    · next who hpc =>
      split_ifs at hs with hempty
      · -- without threads the task is executed at once
        cases hs
        exact ⟨.idle who, moves_of_not rfl rfl (Function.update_eq_self_iff.mpr hpc.symm).symm id
          rfl (by rintro ⟨⟩) hrefl hrefl (hanew hpc rfl)
          (.inr (.inr (List.isEmpty_iff.mp hempty)))⟩
      · cases hs
        exact ⟨_, moves_on rfl rfl rfl (hanew hpc rfl) hrefl hrefl⟩
    · cases hs
  | stop t =>
    rw [step, if_neg hrunning] at hs
    split at hs
    · next who hpc =>
      cases hs
      exact ⟨.stop who .lock, moves_of_not rfl rfl rfl (by rintro ⟨⟩) rfl (fun _ => .inl rfl) hrefl
        hrefl (hanew hpc rfl) (.inl rfl)⟩
    · cases hs
  | next t woken =>
    rw [step, if_neg hrunning, next] at hs
    show ∃ p, Moves t p s s'
    split at hs
    · cases hs
    · next c p hpc => exact moves_run hpc hs
    · next who p hpc => exact moves_stop hpc hs
    · next hpc =>
      cases hs
      split_ifs with hr
      · exact ⟨_, moves_on rfl rfl rfl
          (fun hr' => absurd (hr.symm.trans hr') Bool.true_eq_false.mp) hrefl hrefl⟩
      · exact ⟨_, moves_on rfl rfl rfl
          (fun _ => ⟨.inr (by simp [hpc, Pc.remaining]), Nat.zero_le _⟩) hrefl hrefl⟩
    · next p hpc => exact moves_take hpc hs
    · next hpc =>
      cases hs
      exact ⟨_, moves_on rfl rfl rfl
        (fun _ => ⟨.inr (by simp [hpc, Pc.remaining]), Nat.zero_le _⟩) hrefl hrefl⟩
    · next f hpc =>
      -- the task that was in hand is executed
      cases hs
      exact ⟨.idle .worker, moves_of_not rfl rfl rfl id rfl (by rintro ⟨⟩) hrefl hrefl
        (fun _ => ⟨.inr (by simp [hpc, Pc.remaining]), Nat.zero_le _⟩)
        (.inr (.inl ⟨⟨f, rfl⟩, by simp [hpc, Pc.pending]⟩))⟩
    · cases hs
  | taskReturns t =>
    rw [step, if_neg hrunning] at hs
    split at hs
    · next hpc =>
      cases hs
      exact ⟨_, moves_on rfl rfl rfl (hanew hpc rfl) hrefl hrefl⟩
    · cases hs
  | taskThrows t =>
    rw [step, if_neg hrunning] at hs
    split at hs
    · next hpc =>
      cases hs
      exact ⟨_, moves_on rfl rfl rfl (hanew hpc rfl) hrefl hrefl⟩
    · cases hs

/-! ## Who waits -/

/-- A thread in `stop` has cleared `running_`, and the threads in `wait()` are known to the
condition variables. -/
structure Watch (s : TaskPool θ τ) : Prop where
  stop : ∀ t who q, s.pc t = .stop who q → s.running = false
  notEmpty : ∀ t, s.pc t = .take .wait → s.notEmpty.Has t
  notFull : ∀ t c, s.pc t = .run c .wait → s.notFull.Has t

theorem Moves.watch (h : Moves t p s s') (hs : s.Watch) : s'.Watch := by
  have hother {u : θ} (hu : u ≠ t) : s'.pc u = s.pc u := by
    rw [h.pc, Function.update_of_ne hu]
  have hself : s'.pc t = p := by rw [h.pc, Function.update_self]
  have hstopped (hr : s.running = false) : s'.running = false :=
    Bool.eq_false_iff.mpr fun hr' => Bool.false_ne_true (hr.symm.trans (h.running hr'))
  refine ⟨fun u who q hq => ?_, fun u hq => ?_, fun u c hq => ?_⟩
  · by_cases hu : u = t
    · subst hu
      rcases h.stop who q (hself.symm.trans hq) with hr | ⟨who', q', hq'⟩
      · exact hr
      · exact hstopped (hs.stop u who' q' hq')
    · exact hstopped (hs.stop u who q ((hother hu).symm.trans hq))
  · rcases h.notEmpty with ⟨hp, hkeep⟩ | ⟨-, hwait⟩
    · have hu : u ≠ t := by
        rintro rfl
        exact hp (hself.symm.trans hq)
      exact hkeep.has u hu (hs.notEmpty u ((hother hu).symm.trans hq))
    · rw [hwait, Condition.has_wait]
      by_cases hu : u = t
      · exact .inl hu
      · exact .inr (hs.notEmpty u ((hother hu).symm.trans hq))
  · rcases h.notFull with ⟨hp, hkeep⟩ | ⟨-, hwait⟩
    · have hu : u ≠ t := by
        rintro rfl
        exact hp c (hself.symm.trans hq)
      exact hkeep.has u hu (hs.notFull u c ((hother hu).symm.trans hq))
    · rw [hwait, Condition.has_wait]
      by_cases hu : u = t
      · exact .inl hu
      · exact .inr (hs.notFull u c ((hother hu).symm.trans hq))

theorem watch_start {maxSize : ℕ} {threads : List θ} :
    (start maxSize threads : TaskPool θ τ).Watch := by
  have hpc (t : θ) : (start maxSize threads : TaskPool θ τ).pc t = .loop ∨
      (start maxSize threads : TaskPool θ τ).pc t = .idle .producer := by
    by_cases ht : t ∈ threads
    · exact .inl (if_pos ht)
    · exact .inr (if_neg ht)
  refine ⟨fun t who q hq => ?_, fun t hq => ?_, fun t c hq => ?_⟩ <;>
    rcases hpc t with h | h <;> rw [h] at hq <;> cases hq

/-- The pool is stopped: nobody is left without having been notified, and nobody is about to
wait. -/
structure Closing (s : TaskPool θ τ) : Prop where
  running : s.running = false
  notEmpty : s.notEmpty.waiting = ∅
  notFull : s.notFull.waiting = ∅
  enter : ∀ t, (s.pc t).entering = false

/-- **A pool that is stopped stays so.** -/
theorem Moves.closing (h : Moves t p s s') (hs : s.Closing) : s'.Closing := by
  have hother {u : θ} (hu : u ≠ t) : s'.pc u = s.pc u := by
    rw [h.pc, Function.update_of_ne hu]
  have hself : s'.pc t = p := by rw [h.pc, Function.update_self]
  have hnot {q : Pc τ} (hq : s.pc t = q) (he : q.entering = true) : False := by
    have := hs.enter t
    rw [hq, he] at this
    cases this
  refine ⟨?_, ?_, ?_, fun u => ?_⟩
  · exact Bool.eq_false_iff.mpr fun hr => Bool.false_ne_true (hs.running.symm.trans (h.running hr))
  · rcases h.notEmpty with ⟨-, hkeep⟩ | ⟨hq, -⟩
    · exact Finset.subset_empty.mp (hs.notEmpty ▸ hkeep.waiting)
    · exact (hnot hq rfl).elim
  · rcases h.notFull with ⟨-, hkeep⟩ | ⟨⟨c, hq⟩, -⟩
    · exact Finset.subset_empty.mp (hs.notFull ▸ hkeep.waiting)
    · exact (hnot hq rfl).elim
  · by_cases hu : u = t
    · subst hu
      rw [hself]
      exact Bool.eq_false_iff.mpr fun he =>
        Bool.false_ne_true (hs.running.symm.trans (h.enter he))
    · rw [hother hu]
      exact hs.enter u

/-- Nobody begins to wait in a pool that is stopped. -/
theorem Moves.waits (h : Moves t p s s') (hs : s.Closing) (hw : (s'.pc u).waits = true) :
    (s.pc u).waits = true := by
  have hnot {q : Pc τ} (hq : s.pc t = q) (he : q.entering = true) : False := by
    have := hs.enter t
    rw [hq, he] at this
    cases this
  by_cases hu : u = t
  · subst hu
    rw [h.pc, Function.update_self] at hw
    -- it could only have been about to
    have hne : p ≠ .take .wait ∧ ∀ c, p ≠ .run c .wait := by
      refine ⟨?_, ?_⟩
      · rcases h.notEmpty with ⟨hp, -⟩ | ⟨hq, -⟩
        · exact hp
        · exact (hnot hq rfl).elim
      · rcases h.notFull with ⟨hp, -⟩ | ⟨⟨c, hq⟩, -⟩
        · exact hp
        · exact (hnot hq rfl).elim
    cases p with
    | run c q =>
      cases q with
      | wait => exact absurd rfl (hne.2 c)
      | _ => cases hw
    | take q =>
      cases q with
      | wait => exact absurd rfl hne.1
      | _ => cases hw
    | _ => cases hw
  · rwa [h.pc, Function.update_of_ne hu] at hw

/-- **The calls of `notifyAll` stop the pool**: who has read the old flag holds the lock, and so it
is not another thread than the one that calls them. -/
theorem closing_notifyAll {who : Caller} {woken : Finset θ} (hwatch : s.Watch)
    (hlock : ∀ u, (s.pc u).locked = true → s.mutex = some u) (hpc : s.pc t = .stop who .notifyAll)
    (hs : s.step (.next t woken) = some s') : s'.Closing := by
  have hs' : s' = { s.goto t (.stop who .unlock) with
      notEmpty := s.notEmpty.notifyAll, notFull := s.notFull.notifyAll } := by
    rw [step, next, hpc] at hs
    split at hs
    · cases hs
    · exact (Option.some.inj hs).symm
  subst hs'
  refine ⟨hwatch.stop t who .notifyAll hpc, Condition.waiting_notifyAll,
    Condition.waiting_notifyAll, fun u => ?_⟩
  by_cases hu : u = t
  · subst hu
    simp [goto, Pc.entering]
  · rw [Bool.eq_false_iff]
    intro he
    have hlocked : (s.pc u).locked = true := by
      have he' : (s.pc u).entering = true := by simpa [goto, hu] using he
      cases hq : s.pc u with
      | run c q => rw [hq] at he'; cases q <;> first | rfl | cases he'
      | take q => rw [hq] at he'; cases q <;> first | rfl | cases he'
      | _ => rw [hq] at he'; cases he'
    have hmine : s.mutex = some t := hlock t (by rw [hpc]; rfl)
    exact hu (Option.some.inj ((hlock u hlocked).symm.trans hmine))

/-! ## Who holds the lock -/

/-- No assertion fails, and the lock is held by the thread that is inside it. -/
structure Sound (threads : List θ) (s : TaskPool θ τ) : Prop where
  asserts : s.aborted = false
  threads_eq : s.threads = threads
  locked : ∀ t, (s.pc t).locked = true ↔ s.mutex = some t

/-- A pool without threads, where `run` executes its task at once. -/
structure Quiet (s : TaskPool θ τ) : Prop where
  sound : s.Sound []
  pc : ∀ t, s.pc t = .idle .producer ∨ ∃ q, s.pc t = .stop .producer q

theorem Quiet.goto (h : s.Quiet) {r : Bool} {m : Option θ} {a b : Condition θ}
    (hm : ∀ u ≠ t, m = some u ↔ s.mutex = some u) (hlocked : p.locked = true ↔ m = some t)
    (hp : p = .idle .producer ∨ ∃ q, p = .stop .producer q) :
    Quiet { s.goto t p with running := r, mutex := m, notEmpty := a, notFull := b } := by
  refine ⟨⟨h.sound.asserts, h.sound.threads_eq, fun u => ?_⟩, fun u => ?_⟩
  · by_cases hu : u = t
    · subst hu
      simpa [TaskPool.goto] using hlocked
    · simpa [TaskPool.goto, hu, hm u hu] using h.sound.locked u
  · by_cases hu : u = t
    · subst hu
      simpa [TaskPool.goto] using hp
    · simpa [TaskPool.goto, hu] using h.pc u

/-- No step leads into `run` or `take`. -/
theorem Quiet.step {a : Action θ τ} (h : s.Quiet) (hs : s.step a = some s') : s'.Quiet := by
  have hrunning : ¬s.aborted = true := Bool.eq_false_iff.mp h.sound.asserts
  have hkeep {t : θ} {p q : Pc τ} (hpc : s.pc t = p) (hq : q.locked = p.locked) :
      q.locked = true ↔ s.mutex = some t := by
    rw [hq, ← hpc]
    exact h.sound.locked t
  cases a with
  | run t f =>
    rw [TaskPool.step, if_neg hrunning] at hs
    split at hs
    · rw [if_pos (List.isEmpty_iff.mpr h.sound.threads_eq)] at hs
      cases hs
      exact ⟨⟨h.sound.asserts, h.sound.threads_eq, h.sound.locked⟩, h.pc⟩
    · cases hs
  | stop t =>
    rw [TaskPool.step, if_neg hrunning] at hs
    split at hs
    · next who hpc =>
      cases hs
      obtain rfl : who = .producer := by
        rcases h.pc t with hq | ⟨q, hq⟩
        · exact Pc.idle.inj (hpc.symm.trans hq)
        · cases hpc.symm.trans hq
      exact h.goto (fun _ _ => Iff.rfl) (hkeep hpc rfl) (.inr ⟨.lock, rfl⟩)
    · cases hs
  | next t woken =>
    rw [TaskPool.step, if_neg hrunning, TaskPool.next] at hs
    rcases h.pc t with hpc | ⟨q, hpc⟩
    · rw [hpc] at hs
      cases hs
    · rw [hpc] at hs
      cases q with
      | lock =>
        simp only [TaskPool.stop, TaskPool.lock, Option.ite_none_right_eq_some] at hs
        obtain ⟨hfree, hs⟩ := hs
        cases hs
        refine h.goto (fun u hu => ?_) (iff_of_true rfl rfl) (.inr ⟨.notifyAll, rfl⟩)
        rw [hfree, Option.some_inj]
        exact iff_of_false hu.symm (Option.some_ne_none u).symm
      | notifyAll =>
        cases hs
        exact h.goto (fun _ _ => Iff.rfl) (hkeep hpc rfl) (.inr ⟨.unlock, rfl⟩)
      | unlock =>
        cases hs
        refine h.goto (fun u hu => ?_) ?_ (.inr ⟨.join, rfl⟩)
        · rw [(hkeep hpc rfl).mp rfl, Option.some_inj]
          exact iff_of_false (Option.some_ne_none u).symm hu.symm
        · exact iff_of_false Bool.false_ne_true (Option.some_ne_none t).symm
      | join =>
        simp only [TaskPool.stop, Option.ite_none_right_eq_some] at hs
        cases hs.2
        exact h.goto (fun _ _ => Iff.rfl) (hkeep hpc rfl) (.inl rfl)
  | taskReturns t =>
    rw [TaskPool.step, if_neg hrunning] at hs
    rcases h.pc t with hpc | ⟨q, hpc⟩ <;> rw [hpc] at hs <;> cases hs
  | taskThrows t =>
    rw [TaskPool.step, if_neg hrunning] at hs
    rcases h.pc t with hpc | ⟨q, hpc⟩ <;> rw [hpc] at hs <;> cases hs

theorem quiet_start {maxSize : ℕ} : (start maxSize [] : TaskPool θ τ).Quiet :=
  ⟨⟨rfl, rfl, fun _ => iff_of_false nofun nofun⟩, fun _ => .inl rfl⟩

theorem Inv.sound {maxSize : ℕ} {threads : List θ} (h : s.Inv maxSize threads) :
    s.Sound threads :=
  ⟨h.shared.asserts, h.shared.threads_eq, fun t => (h.thread t).locked⟩

theorem sound_of_exec {maxSize : ℕ} {threads : List θ} {as : List (Action θ τ)}
    (h : Runs.exec step (start maxSize threads) as = some s) : s.Sound threads := by
  by_cases hne : threads = []
  · subst hne
    exact (Runs.exec_induction quiet_start (fun _ _ _ h hs => Quiet.step h hs) h).sound
  · exact (Runs.exec_induction inv_start (fun _ _ _ h hs => Inv.step hne h hs) h).sound

/-! ## After the calls of `notifyAll` -/

/-- Who holds the lock can go on. -/
theorem Closing.next_isSome_of_locked (h : s.Closing) (ha : s.aborted = false)
    (hl : (s.pc t).locked = true) : (s.step (.next t ∅)).isSome = true := by
  rw [step, if_neg (Bool.eq_false_iff.mp ha), next]
  cases hpc : s.pc t with
  | run c q =>
    rw [hpc] at hl
    cases q with
    | lock => cases hl
    | wait => cases hl
    | test =>
      show (run s t ∅ c .test).isSome = true
      rw [run]
      split <;> rfl
    | push =>
      show (run s t ∅ c .push).isSome = true
      rw [run]
      split <;> rfl
    | notify =>
      -- nobody waits, so the notification wakes nobody
      have hnotify : s.notEmpty.notify ∅ = some (s.notEmpty.wake ∅) := by
        rw [Condition.notify, h.notEmpty, if_pos ⟨Finset.Subset.refl _, id⟩]
      show (run s t ∅ c .notify).isSome = true
      rw [run, hnotify]
      rfl
    | _ => rfl
  | stop who q =>
    rw [hpc] at hl
    cases q with
    | lock => cases hl
    | join => cases hl
    | _ => rfl
  | take q =>
    rw [hpc] at hl
    cases q with
    | lock => cases hl
    | wait => cases hl
    | pop =>
      show (take s t .pop).isSome = true
      rw [take]
      split <;> rfl
    | _ => rfl
  | _ =>
    rw [hpc] at hl
    cases hl

/-- Where the lock is free, a thread in the code of the pool can go on. -/
theorem next_isSome_of_free (ha : s.aborted = false) (hfree : s.mutex = none)
    (hl : (s.pc t).locked = false) (hp : (s.pc t).inPool = true) :
    (s.step (.next t ∅)).isSome = true := by
  rw [step, if_neg (Bool.eq_false_iff.mp ha), next]
  cases hpc : s.pc t with
  | run c q =>
    rw [hpc] at hl
    cases q with
    | lock => simp [run, lock, hfree]
    | wait => simp [run, lock, hfree]
    | _ => cases hl
  | stop who q =>
    rw [hpc] at hl hp
    cases q with
    | lock => simp [stop, lock, hfree]
    | join => cases hp
    | _ => cases hl
  | take q =>
    rw [hpc] at hl
    cases q with
    | lock => simp [take, lock, hfree]
    | wait => simp [take, lock, hfree]
    | _ => cases hl
  | returned task => cases task <;> rfl
  | loop => rfl
  | idle who =>
    rw [hpc] at hp
    cases hp
  | finished =>
    rw [hpc] at hp
    cases hp

theorem Closing.goesOn {threads : List θ} (h : s.Closing) (hs : s.Sound threads)
    (hp : (s.pc t).inPool = true) :
    ∃ w, (w = t ∨ s.mutex = some w) ∧ (s.step (.next w ∅)).isSome = true := by
  cases hm : s.mutex with
  | none =>
    have hl : (s.pc t).locked = false :=
      Bool.eq_false_iff.mpr fun hl => nomatch ((hs.locked t).mp hl).symm.trans hm
    exact ⟨t, .inl rfl, next_isSome_of_free hs.asserts hm hl hp⟩
  | some w =>
    exact ⟨w, .inr rfl, h.next_isSome_of_locked hs.asserts ((hs.locked w).mpr hm)⟩

/-- The threads of the pool have at most one more task to start, and between two calls a thread
makes at most eight steps. -/
structure Bounds (threads : List θ) (u : TaskPool θ τ) (bs : List (Action θ τ))
    (v : TaskPool θ τ) : Prop where
  work : ∀ t ∈ threads,
    (v.executedBy t).length + (v.pc t).pending ≤ (u.executedBy t).length + 1
  count : ∀ t, bs.countP (Action.isNext t) + (v.pc t).remaining ≤
    8 * (bs.countP (Action.isCall t) + 1)

omit [DecidableEq θ] in
theorem remaining_le (p : Pc τ) : p.remaining ≤ 8 := by
  cases p with
  | run c q => cases q <;> simp [Pc.remaining]
  | stop who q => cases q <;> simp [Pc.remaining]
  | take q => cases q <;> simp [Pc.remaining]
  | _ => simp [Pc.remaining]

omit [DecidableEq θ] in
theorem pending_le (p : Pc τ) : p.pending ≤ 1 := by
  have htask (task : Option τ) : task.toList.length ≤ 1 := by cases task <;> simp
  cases p with
  | take q => cases q <;> simp [Pc.pending, htask]
  | returned task => exact htask task
  | _ => simp [Pc.pending]

theorem bounds_nil {threads : List θ} : s.Bounds threads [] s :=
  ⟨fun t _ => Nat.add_le_add_left (pending_le _) _, fun t => by simpa using remaining_le (s.pc t)⟩

theorem Bounds.step {threads : List θ} {bs : List (Action θ τ)} {a : Action θ τ}
    {v : TaskPool θ τ} (hb : s.Bounds threads bs v) (hv : v.Closing) (hsound : v.Sound threads)
    (hsound' : s'.Sound threads) (hs : v.step a = some s') : s.Bounds threads (bs ++ [a]) s' := by
  obtain ⟨p, hp⟩ := exists_moves hs
  have hdeclines := hp.declines hv.running hsound'.asserts
  have hself : s'.pc a.thread = p := by rw [hp.pc, Function.update_self]
  have hother {t : θ} (ht : t ≠ a.thread) : s'.pc t = v.pc t := by
    rw [hp.pc, Function.update_of_ne ht]
  refine ⟨fun t ht => ?_, fun t => ?_⟩
  · have hwork := hb.work t ht
    have hne : v.threads ≠ [] := by
      rw [hsound.threads_eq]
      exact List.ne_nil_of_mem ht
    by_cases hta : t = a.thread
    · -- what it executes it had in hand
      subst hta
      rw [hself]
      rcases hp.executed with he | ⟨⟨f, he⟩, hlt⟩ | hnil
      · have := hdeclines.2
        rw [executedBy, he]
        exact (Nat.add_le_add_left this _).trans hwork
      · have hlen : (s'.executedBy a.thread).length = (v.executedBy a.thread).length + 1 := by
          simp [executedBy, he, List.filterMap_append]
        omega
      · exact absurd hnil hne
    · have hlen : s'.executedBy t = v.executedBy t := by
        rcases hp.executed with he | ⟨⟨f, he⟩, -⟩ | hnil
        · rw [executedBy, he]
          rfl
        · simp [executedBy, he, List.filterMap_append, Ne.symm hta]
        · exact absurd hnil hne
      rw [hlen, hother hta]
      exact hwork
  · have hcount := hb.count t
    by_cases hta : t = a.thread
    · subst hta
      have hle := remaining_le p
      rw [hself, List.countP_append, List.countP_append, List.countP_singleton,
        List.countP_singleton]
      cases hnext : a.isNext a.thread with
      | false =>
        have hcall : a.isCall a.thread = true := by simp [Action.isCall, hnext]
        simp only [hcall, if_true, Bool.false_eq_true, if_false]
        omega
      | true =>
        -- a thread in the user's code has no next step
        have hlt : p.remaining < (v.pc a.thread).remaining := by
          refine hdeclines.1.resolve_left ?_
          rintro ⟨who, hidle⟩
          cases a with
          | next u woken =>
            have hidle : v.pc u = .idle who := hidle
            rw [TaskPool.step, TaskPool.next, hidle, ite_self] at hs
            cases hs
          | _ => cases hnext
        have hcall : a.isCall a.thread = false := by simp [Action.isCall, hnext]
        simp only [hcall, if_true, Bool.false_eq_true, if_false]
        omega
    · have hnext : a.isNext t = false := by
        cases a with
        | next u woken => exact decide_eq_false (Ne.symm hta)
        | _ => rfl
      have hcall : a.isCall t = false := by simp [Action.isCall, Ne.symm hta]
      rw [hother hta, List.countP_append, List.countP_append, List.countP_singleton,
        List.countP_singleton, hnext, hcall]
      exact hcount

/-- **What holds after the calls of `notifyAll`** holds after every run from there. -/
theorem closing_of_exec {maxSize : ℕ} {threads : List θ} {as bs : List (Action θ τ)}
    {v : TaskPool θ τ} (h : Runs.exec step (start maxSize threads) as = some s) (hw : s.Watch)
    (hc : s.Closing) (h' : Runs.exec step s bs = some v) :
    v.Watch ∧ v.Closing ∧ s.Bounds threads bs v := by
  induction bs using List.reverseRecOn generalizing v with
  | nil =>
    cases h'
    exact ⟨hw, hc, bounds_nil⟩
  | append_singleton bs a ih =>
    obtain ⟨w, hbs, hs⟩ := Runs.exec_concat_eq_some.mp h'
    obtain ⟨hw, hc, hb⟩ := ih hbs
    have hsound : w.Sound threads := sound_of_exec (Runs.exec_append_eq_some.mpr ⟨s, h, hbs⟩)
    have hsound' : v.Sound threads := sound_of_exec (Runs.exec_append_eq_some.mpr ⟨s, h, h'⟩)
    obtain ⟨p, hp⟩ := exists_moves hs
    exact ⟨hp.watch hw, hp.closing hc, hb.step hc hsound hsound' hs⟩

/-- **`stop` releases everyone.** For every number of threads in the pool and outside, every bound
of the queue and every interleaving, also where tasks call `run` and `stop`: after a call of `stop`
has notified, nobody waits without having been notified and nobody waits again, a thread of the pool
starts at most one more task, and every thread in the code of the pool leaves it after boundedly
many steps, one of which, or one of the thread that holds the lock, is always possible. -/
theorem releases_of_exec {maxSize : ℕ} {threads : List θ} {as bs : List (Action θ τ)}
    {s u v : TaskPool θ τ} {who : Caller} {woken : Finset θ}
    (h : Runs.exec step (start maxSize threads) as = some s) (hpc : s.pc t = .stop who .notifyAll)
    (hs : s.step (.next t woken) = some u) (h' : Runs.exec step u bs = some v) :
    Releases threads u bs v := by
  have hwatch : s.Watch := Runs.exec_induction watch_start
    (fun _ _ _ hw hs => (exists_moves hs).elim fun _ hp => hp.watch hw) h
  have hclosing : u.Closing :=
    closing_notifyAll hwatch (fun w => ((sound_of_exec h).locked w).mp) hpc hs
  have hu : Runs.exec step (start maxSize threads) (as ++ [.next t woken]) = some u :=
    Runs.exec_concat_eq_some.mpr ⟨s, h, hs⟩
  obtain ⟨p, hp⟩ := exists_moves hs
  obtain ⟨hw, hc, hb⟩ := closing_of_exec hu (hp.watch hwatch) hclosing h'
  have hsound : v.Sound threads := sound_of_exec (Runs.exec_append_eq_some.mpr ⟨u, hu, h'⟩)
  refine ⟨⟨hc.notEmpty, hc.notFull⟩, fun w => ⟨fun hq => ?_, fun c hq => ?_⟩,
    fun a w ha x hx => ?_, fun w hwt => ?_, hb.count, fun w hq => hc.goesOn hsound hq,
    fun hall w who' hq => ?_⟩
  · exact (hw.notEmpty w hq).mem_notified hc.notEmpty
  · exact (hw.notFull w c hq).mem_notified hc.notFull
  · obtain ⟨q, hq⟩ := exists_moves ha
    exact hq.waits hc hx
  · exact (Nat.le_add_right _ _).trans (hb.work w hwt)
  · rw [step, if_neg (Bool.eq_false_iff.mp hsound.asserts), next, hq]
    show (stop v w who' .join).isSome = true
    rw [stop, if_pos]
    · rfl
    · rw [hsound.threads_eq, List.all_eq_true]
      intro x hx
      rw [hall x hx]

/-- The thread 2 waits for room when the thread 3 has stopped the pool and holds the lock. -/
def stopping : List (Action ℕ ℕ) :=
  [.run 1 (some 5)] ++ steps 6 1 ++ [.run 2 (some 6)] ++ steps 4 2 ++ steps 1 0 ++ [.stop 3] ++
    steps 1 3

/-- The theorem at work: the thread 3 notifies, the thread 2 gives up and the thread 0 of the pool
executes its task. -/
theorem releases_of_exec_stopping : ∃ s u v : TaskPool ℕ ℕ,
    Runs.exec step (start 1 [0]) stopping = some s ∧ s.pc 3 = .stop .producer .notifyAll ∧
      s.step (.next 3 ∅) = some u ∧
      Runs.exec step u (steps 1 3 ++ steps 5 2 ++ steps 5 0) = some v ∧
      (s.notFull.waiting, v.executed) = ({2}, [(0, 5)]) ∧
      Releases [0] u (steps 1 3 ++ steps 5 2 ++ steps 5 0) v := by
  have hrun : ((Runs.exec step (start 1 [0]) stopping).bind fun s : TaskPool ℕ ℕ =>
      (s.step (.next 3 ∅)).bind fun u =>
        (Runs.exec step u (steps 1 3 ++ steps 5 2 ++ steps 5 0)).map fun v =>
          (s.pc 3, s.notFull.waiting, v.executed)) =
        some (.stop .producer .notifyAll, {2}, [(0, 5)]) := by
    decide +kernel
  obtain ⟨s, hs, hrest⟩ := Option.bind_eq_some_iff.mp hrun
  obtain ⟨u, hu, hrest⟩ := Option.bind_eq_some_iff.mp hrest
  obtain ⟨v, hv, hobs⟩ := Option.map_eq_some_iff.mp hrest
  simp only [Prod.mk.injEq] at hobs
  exact ⟨s, u, v, hs, hobs.1, hu, hv, Prod.ext hobs.2.1 hobs.2.2,
    releases_of_exec hs hobs.1 hu hv⟩

end TaskPool

end Muduo
