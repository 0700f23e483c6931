import Muduo.Net.TimerInvariant

/-! # One `handleRead`

What a `handleRead(now)` that began in the state `s` has done when the queue is in the state `t`,
with the events `evs` in between. `Batch` is the invariant: `Batch.handleRead` begins it, and every
action but another `handleRead` keeps it (`Batch.step`). -/

namespace Muduo

namespace Net

/-- The turns that were taken, with the timer of each. -/
def turns (evs : List TimerEvent) : List (Entry × ℕ) :=
  evs.filterMap fun
    | .ran e i => some (e, i)
    | .skipped e i => some (e, i)
    | _ => none

/-- The expirations with which a timer was requeued. -/
def requeues (i : ℕ) (evs : List TimerEvent) : List Timestamp :=
  evs.filterMap fun
    | .requeued j expiration => if j = i then some expiration else none
    | _ => none

namespace TimerQueue

variable {Q : PriorityQueue Entry}

/-- The timer that an entry points to. -/
def index (s : TimerQueue Q) (e : Entry) : ℕ := indexOf s.timers e

/-- An entry with its timer. -/
def tag (s : TimerQueue Q) (e : Entry) : Entry × ℕ := (e, s.index e)

/-- The timer `i` was requeued once, with `expiration`, and its entry is in the heap. -/
structure Requeued (t : TimerQueue Q) (evs : List TimerEvent) (timer i : ℕ)
    (expiration : Timestamp) : Prop where
  once : requeues i evs = [expiration]
  entry : ⟨expiration, timer⟩ ∈ Q.contents t.timerQueue
  index : t.index ⟨expiration, timer⟩ = i

/-- What the loops of `handleRead(now)` have left to do. -/
inductive Progress (due : List Entry) (now : Timestamp) (evs : List TimerEvent) : Phase → Prop
  | dispatching {done todo : List Entry} : done ++ todo = due → (∀ i, requeues i evs = []) →
      Progress due now evs (.dispatching now done todo)
  | calling {done todo : List Entry} : done ++ todo = due → (∀ i, requeues i evs = []) →
      Progress due now evs (.calling now done todo)
  | resetting {todo : List Entry} : todo <:+ due → Progress due now evs (.resetting now todo)
  | idle : Progress due now evs .idle

/-- The invariant of `handleRead(now)` begun in `s`. -/
structure Batch (s : TimerQueue Q) (now : Timestamp) (t : TimerQueue Q)
    (evs : List TimerEvent) : Prop where
  log : t.log = s.log ++ evs
  turns : turns evs ++ t.phase.waiting.map s.tag = (s.due now).map s.tag
  progress : Progress (s.due now) now evs t.phase
  /-- An entry of the batch still points to the same timer. -/
  index : ∀ e ∈ t.phase.batch, t.index e = s.index e
  /-- A timer that ran and repeats is requeued when its entry leaves the batch. -/
  requeued : ∀ e i iv, .ran e i ∈ evs → .added i iv ∈ t.log → iv.positive = true →
    .cancelled i ∉ t.log → (e ∈ t.phase.batch → requeues i evs = []) ∧
      (e ∉ t.phase.batch → t.Requeued evs e.timer i (addTime now iv))

theorem mem_turns_of_ran {evs : List TimerEvent} {e : Entry} {i : ℕ} (h : .ran e i ∈ evs) :
    (e, i) ∈ Net.turns evs :=
  List.mem_filterMap.mpr ⟨_, h, rfl⟩

/-- A callback runs for a due entry, and its timer. -/
theorem Batch.due_of_ran {s t : TimerQueue Q} {now : Timestamp} {evs : List TimerEvent}
    (h : s.Batch now t evs) {e : Entry} {i : ℕ} (hran : .ran e i ∈ evs) :
    e ∈ s.due now ∧ i = s.index e := by
  have hmem : (e, i) ∈ (s.due now).map s.tag := by
    rw [← h.turns]
    exact List.mem_append_left _ (mem_turns_of_ran hran)
  obtain ⟨f, hf, heq⟩ := List.mem_map.mp hmem
  cases heq
  exact ⟨hf, rfl⟩

/-- `handleRead(now)` begins with all due entries to do. -/
theorem Batch.handleRead {s t : TimerQueue Q} {now : Timestamp} (h : s.Inv)
    (ht : s.handleRead now = some t) : s.Batch now t [] := by
  obtain ⟨q, hread, -⟩ := h.exists_handleRead now
  rw [hread] at ht
  cases ht
  refine ⟨(List.append_nil _).symm, rfl, .dispatching rfl fun _ => rfl, fun _ _ => rfl, ?_⟩
  intro e i iv hran
  cases hran

theorem turns_append (evs evs' : List TimerEvent) :
    Net.turns (evs ++ evs') = Net.turns evs ++ Net.turns evs' :=
  List.filterMap_append

theorem requeues_append (i : ℕ) (evs evs' : List TimerEvent) :
    requeues i (evs ++ evs') = requeues i evs ++ requeues i evs' :=
  List.filterMap_append

theorem Progress.of_requeues {due : List Entry} {now : Timestamp} {evs evs' : List TimerEvent}
    {p : Phase} (h : Progress due now evs p) (hreq : ∀ i, requeues i evs' = requeues i evs) :
    Progress due now evs' p := by
  cases h with
  | dispatching hd hr => exact .dispatching hd fun i => (hreq i).trans (hr i)
  | calling hd hr => exact .calling hd fun i => (hreq i).trans (hr i)
  | resetting hd => exact .resetting hd
  | idle => exact .idle

/-- A timer is added or cancelled while the batch goes on. -/
theorem Batch.keep {s t t' : TimerQueue Q} {now : Timestamp} {evs : List TimerEvent}
    {ev : TimerEvent} (h : s.Batch now t evs) (hinv : t.Inv) (hlog : t'.log = t.log ++ [ev])
    (hphase : t'.phase = t.phase) (hindex : ∀ e ∈ t.entries, t'.index e = t.index e)
    (hsub : ∀ e ∈ Q.contents t.timerQueue, e ∈ Q.contents t'.timerQueue)
    (hturns : Net.turns [ev] = []) (hrequeues : ∀ i, requeues i [ev] = [])
    (hran : ∀ e i, ev ≠ .ran e i) (hadded : ∀ i iv, ev = .added i iv → t.numCreated < i) :
    s.Batch now t' (evs ++ [ev]) := by
  have hreq (i : ℕ) : requeues i (evs ++ [ev]) = requeues i evs := by
    rw [requeues_append, hrequeues, List.append_nil]
  refine ⟨?_, ?_, ?_, ?_, ?_⟩
  · rw [hlog, h.log, List.append_assoc]
  · rw [turns_append, hturns, List.append_nil, hphase]
    exact h.turns
  · rw [hphase]
    exact h.progress.of_requeues hreq
  · intro e he
    rw [hphase] at he
    rw [hindex e (Multiset.mem_add.mpr (.inr he))]
    exact h.index e he
  · intro e i iv hrun hadd hpos hnot
    have hrun : .ran e i ∈ evs := by
      refine (List.mem_append.mp hrun).resolve_right fun hm => ?_
      exact hran e i (List.mem_singleton.mp hm).symm
    have hlogged : .ran e i ∈ t.log := by
      rw [h.log]
      exact List.mem_append_right _ hrun
    rw [hlog] at hadd hnot
    have hadd : .added i iv ∈ t.log := by
      refine (List.mem_append.mp hadd).resolve_right fun hm => ?_
      -- a timer that is added now has not run
      exact absurd (hinv.index_le _ hlogged)
        (not_le.mpr (hadded i iv (List.mem_singleton.mp hm).symm))
    have hnot : .cancelled i ∉ t.log := fun hm => hnot (List.mem_append_left _ hm)
    obtain ⟨hin, hout⟩ := h.requeued e i iv hrun hadd hpos hnot
    rw [hphase, hreq]
    refine ⟨hin, fun he => ?_⟩
    obtain ⟨honce, hentry, hidx⟩ := hout he
    refine ⟨(hreq i).trans honce, hsub _ hentry, ?_⟩
    rw [hindex _ (Multiset.mem_add.mpr (.inl hentry))]
    exact hidx

/-- The loop thread goes on, and no timer changes. -/
theorem Batch.goOn {s t t' : TimerQueue Q} {now : Timestamp} {evs : List TimerEvent}
    (h : s.Batch now t evs) (hlog : t'.log = t.log) (htimers : t'.timers = t.timers)
    (hqueue : t'.timerQueue = t.timerQueue) (hbatch : t'.phase.batch = t.phase.batch)
    (hwaiting : t'.phase.waiting = t.phase.waiting)
    (hprogress : Progress (s.due now) now evs t'.phase) : s.Batch now t' evs := by
  have hindex (e : Entry) : t'.index e = t.index e := by
    rw [TimerQueue.index, TimerQueue.index, htimers]
  refine ⟨hlog.trans h.log, ?_, hprogress, ?_, ?_⟩
  · rw [hwaiting]
    exact h.turns
  · intro e he
    rw [hindex]
    exact h.index e (hbatch ▸ he)
  · intro e i iv hrun hadd hpos hnot
    rw [hlog] at hadd hnot
    obtain ⟨hin, hout⟩ := h.requeued e i iv hrun hadd hpos hnot
    rw [hbatch]
    refine ⟨hin, fun he => ?_⟩
    obtain ⟨honce, hentry, hidx⟩ := hout he
    exact ⟨honce, hqueue ▸ hentry, (hindex _).trans hidx⟩

theorem Batch.addTimer {s t : TimerQueue Q} {now : Timestamp} {evs : List TimerEvent}
    (h : s.Batch now t evs) (hinv : t.Inv) {timer : ℕ} (expiration : Timestamp)
    (interval : Seconds) (clock : Timestamp) (hfree : t.timers timer = none) :
    s.Batch now (t.addTimer timer expiration interval clock)
      (evs ++ [.added (t.numCreated + 1) interval]) := by
  have hne {e : Entry} (he : e ∈ t.entries) : e.timer ≠ timer := by
    rintro rfl
    obtain ⟨u, hu⟩ := hinv.exists_timer he
    rw [hfree] at hu
    cases hu
  have hbatch : s.Batch now { t with
      timers := Function.update t.timers timer (some (.new expiration interval (t.numCreated + 1)))
      timerQueue := Q.push t.timerQueue ⟨expiration, timer⟩
      numCreated := t.numCreated + 1
      log := t.log ++ [.added (t.numCreated + 1) interval] }
      (evs ++ [.added (t.numCreated + 1) interval]) := by
    refine h.keep hinv rfl rfl (fun e he => ?_) (fun e he => ?_) rfl (fun _ => rfl) nofun ?_
    · exact Sound.indexOf_update _ (hne he)
    · rw [Q.contents_push]
      exact Multiset.mem_cons_of_mem he
    · intro i iv heq
      cases heq
      exact Nat.lt_succ_self _
  rw [TimerQueue.addTimer]
  split_ifs
  · exact hbatch.goOn rfl rfl rfl rfl rfl hbatch.progress
  · exact hbatch

theorem Batch.cancelInLoop {s t t' : TimerQueue Q} {now : Timestamp} {evs : List TimerEvent}
    (h : s.Batch now t evs) (hinv : t.Inv) {timer : ℕ} (ht : t.cancelInLoop timer = some t') :
    ∃ ev, s.Batch now t' (evs ++ [ev]) := by
  obtain ⟨u, hu, rfl⟩ := Option.map_eq_some_iff.mp ht
  refine ⟨.cancelled u.index, h.keep hinv rfl rfl (fun e _ => ?_) (fun _ => id) rfl (fun _ => rfl)
    nofun nofun⟩
  exact Sound.indexOf_replace hu (rfl : u.cancel.index = u.index) e

/-- The next entry has its turn, with the event `ev`. -/
theorem Batch.takeTurn {s t t' : TimerQueue Q} {now : Timestamp} {evs : List TimerEvent}
    {done todo : List Entry} {e : Entry} {ev : TimerEvent} (h : s.Batch now t evs)
    (hphase : t.phase = .dispatching now done (e :: todo)) (hlog : t'.log = t.log ++ [ev])
    (htimers : t'.timers = t.timers) (hbatch : t'.phase.batch = t.phase.batch)
    (hwaiting : t'.phase.waiting = todo)
    (hprogress : ∀ evs', (∀ i, requeues i evs' = []) → Progress (s.due now) now evs' t'.phase)
    (hturns : Net.turns [ev] = [(e, t.index e)]) (hrequeues : ∀ i, requeues i [ev] = []) :
    s.Batch now t' (evs ++ [ev]) := by
  have hindex (e : Entry) : t'.index e = t.index e := by
    rw [TimerQueue.index, TimerQueue.index, htimers]
  -- nothing was requeued so far, and the whole batch is still there
  obtain ⟨hdue, hnone⟩ : t.phase.batch = s.due now ∧ ∀ i, requeues i evs = [] := by
    have hp := h.progress
    rw [hphase] at hp ⊢
    cases hp with
    | dispatching hd hr => exact ⟨hd, hr⟩
  have hnone' (i : ℕ) : requeues i (evs ++ [ev]) = [] := by
    rw [requeues_append, hnone, hrequeues, List.append_nil]
  have hmem : e ∈ t.phase.batch := by
    rw [hphase]
    exact List.mem_append_right _ List.mem_cons_self
  refine ⟨?_, ?_, hprogress _ hnone', ?_, ?_⟩
  · rw [hlog, h.log, List.append_assoc]
  · have ht := h.turns
    rw [hphase, Phase.waiting, List.map_cons] at ht
    rw [turns_append, hturns, h.index e hmem, hwaiting, List.append_assoc]
    exact ht
  · intro f hf
    rw [hindex]
    exact h.index f (hbatch ▸ hf)
  · intro f i iv hran _ _ _
    refine ⟨fun _ => hnone' i, fun hf => absurd ?_ hf⟩
    -- a callback runs for an entry of the batch only
    rw [hbatch, hdue]
    rcases List.mem_append.mp hran with hran | hran
    · exact (h.due_of_ran hran).1
    · have hturn := mem_turns_of_ran hran
      rw [hturns] at hturn
      rw [← hdue, (Prod.mk.inj (List.mem_singleton.mp hturn)).1]
      exact hmem

theorem Batch.turn {s t t' : TimerQueue Q} {now : Timestamp} {evs : List TimerEvent}
    {done todo : List Entry} (h : s.Batch now t evs)
    (hphase : t.phase = .dispatching now done todo) (ht : t.turn now done todo = some t') :
    ∃ evs', s.Batch now t' (evs ++ evs') := by
  have hp := h.progress
  rw [hphase] at hp
  obtain ⟨hd, hr⟩ : done ++ todo = s.due now ∧ ∀ i, requeues i evs = [] := by
    cases hp with
    | dispatching hd hr => exact ⟨hd, hr⟩
  cases todo with
  | nil =>
    cases ht
    refine ⟨[], ?_⟩
    rw [List.append_nil] at hd ⊢
    refine h.goOn rfl rfl rfl ?_ ?_ (.resetting (hd ▸ List.suffix_rfl))
    · rw [hphase, Phase.batch, Phase.batch, List.append_nil]
    · rw [hphase]
      rfl
  | cons e todo =>
    obtain ⟨u, hu, ht'⟩ := Option.map_eq_some_iff.mp ht
    have hidx : t.index e = u.index := by
      rw [TimerQueue.index, indexOf, hu]
      rfl
    have hsplit : (done ++ [e]) ++ todo = done ++ e :: todo := by simp
    by_cases hc : u.canceled = true
    · rw [if_pos hc] at ht'
      subst ht'
      refine ⟨[.skipped e u.index], h.takeTurn hphase rfl rfl ?_ rfl ?_ ?_ fun _ => rfl⟩
      · rw [hphase]
        exact hsplit
      · exact fun evs' hr' => .dispatching (hsplit.trans hd) hr'
      · rw [hidx]
        rfl
    · rw [if_neg hc] at ht'
      subst ht'
      refine ⟨[.ran e u.index], h.takeTurn hphase rfl rfl ?_ rfl ?_ ?_ fun _ => rfl⟩
      · rw [hphase]
        exact hsplit
      · exact fun evs' hr' => .calling (hsplit.trans hd) hr'
      · rw [hidx]
        rfl

/-- Entries at different addresses have different timers. -/
theorem Inv.index_ne {t : TimerQueue Q} (h : t.Inv) {a : ℕ} {u : Timer} (hu : t.timers a = some u)
    {f : Entry} (hf : f ∈ t.entries) (hne : f.timer ≠ a) : t.index f ≠ u.index := by
  obtain ⟨v, hv⟩ := h.exists_timer hf
  rw [TimerQueue.index, indexOf, hv]
  exact fun heq => hne (h.injective _ _ v u hv hu heq)

/-- The timer of the next entry is requeued or deleted, with the event `ev`. -/
theorem Batch.settle {s t t' : TimerQueue Q} {now : Timestamp} {evs : List TimerEvent}
    {todo : List Entry} {e : Entry} {u : Timer} {ev : TimerEvent} (h : s.Batch now t evs)
    (hinv : t.Inv) (hphase : t.phase = .resetting now (e :: todo)) (hu : t.timers e.timer = some u)
    (hlog : t'.log = t.log ++ [ev]) (hphase' : t'.phase = .resetting now todo)
    (hother : ∀ f, f.timer ≠ e.timer → t'.index f = t.index f)
    (hsub : ∀ f ∈ Q.contents t.timerQueue, f ∈ Q.contents t'.timerQueue)
    (hturns : Net.turns [ev] = []) (hran : ∀ e i, ev ≠ .ran e i) (hadded : ∀ i iv, ev ≠ .added i iv)
    (hrequeues : ∀ i, i ≠ u.index → requeues i [ev] = [])
    (hself : ∀ iv, .added u.index iv ∈ t.log → iv.positive = true → .cancelled u.index ∉ t.log →
      t'.Requeued [ev] e.timer u.index (addTime now iv)) : s.Batch now t' (evs ++ [ev]) := by
  have hentries : t.entries = e ::ₘ (Q.contents t.timerQueue + (todo : Multiset Entry)) := by
    rw [entries, hphase, Phase.batch, ← Multiset.cons_coe, Multiset.add_cons]
  have hnd := hinv.nodup
  rw [hentries] at hnd
  have hne {f : Entry} (hf : f ∈ Q.contents t.timerQueue + (todo : Multiset Entry)) :
      f.timer ≠ e.timer :=
    Sound.timer_ne hnd hf
  have hidx {f : Entry} (hf : f ∈ Q.contents t.timerQueue + (todo : Multiset Entry)) :
      t.index f ≠ u.index :=
    hinv.index_ne hu (hentries ▸ Multiset.mem_cons_of_mem hf) (hne hf)
  have htodo {f : Entry} (hf : f ∈ todo) : f ∈ Q.contents t.timerQueue + (todo : Multiset Entry) :=
    Multiset.mem_add.mpr (.inr hf)
  have hbatch : t.phase.batch = e :: todo := by rw [hphase, Phase.batch]
  have hself_index : s.index e = u.index := by
    rw [← h.index e (hbatch ▸ List.mem_cons_self), TimerQueue.index, indexOf, hu]
    rfl
  refine ⟨?_, ?_, ?_, ?_, ?_⟩
  · rw [hlog, h.log, List.append_assoc]
  · have ht := h.turns
    rw [hphase] at ht
    rw [turns_append, hturns, List.append_nil, hphase']
    exact ht
  · have hp := h.progress
    rw [hphase] at hp
    rw [hphase']
    cases hp with
    | resetting hd => exact .resetting ((List.suffix_cons e todo).trans hd)
  · intro f hf
    rw [hphase', Phase.batch] at hf
    rw [hother f (hne (htodo hf))]
    exact h.index f (hbatch ▸ List.mem_cons_of_mem e hf)
  · intro f i iv hrun hadd hpos hnot
    have hrun : .ran f i ∈ evs := by
      refine (List.mem_append.mp hrun).resolve_right fun hm => ?_
      exact hran f i (List.mem_singleton.mp hm).symm
    rw [hlog] at hadd hnot
    have hadd : .added i iv ∈ t.log := by
      refine (List.mem_append.mp hadd).resolve_right fun hm => ?_
      exact hadded i iv (List.mem_singleton.mp hm).symm
    have hnot : .cancelled i ∉ t.log := fun hm => hnot (List.mem_append_left _ hm)
    obtain ⟨hin, hout⟩ := h.requeued f i iv hrun hadd hpos hnot
    obtain ⟨-, rfl⟩ := h.due_of_ran hrun
    rw [hbatch] at hin hout
    rw [hphase', Phase.batch]
    constructor
    · intro hf
      rw [requeues_append, hin (List.mem_cons_of_mem e hf), List.nil_append]
      refine hrequeues _ ?_
      rw [← h.index f (hbatch ▸ List.mem_cons_of_mem e hf)]
      exact hidx (htodo hf)
    · intro hf
      by_cases hfe : f = e
      · subst hfe
        rw [hself_index] at hadd hnot hin ⊢
        obtain ⟨honce, hentry, hindex⟩ := hself iv hadd hpos hnot
        refine ⟨?_, hentry, hindex⟩
        rw [requeues_append, hin List.mem_cons_self, honce, List.nil_append]
      · -- its entry was requeued before, and stays
        obtain ⟨honce, hentry, hindex⟩ := hout fun hm => (List.mem_cons.mp hm).elim hfe hf
        have hmem : ⟨addTime now iv, f.timer⟩ ∈ Q.contents t.timerQueue + (todo : Multiset Entry) :=
          Multiset.mem_add.mpr (.inl hentry)
        refine ⟨?_, hsub _ hentry, (hother _ (hne hmem)).trans hindex⟩
        rw [requeues_append, honce, hrequeues _ (hindex ▸ hidx hmem), List.append_nil]

theorem Batch.resetNext {s t t' : TimerQueue Q} {now clock : Timestamp} {evs : List TimerEvent}
    {todo : List Entry} (h : s.Batch now t evs) (hinv : t.Inv)
    (hphase : t.phase = .resetting now todo) (ht : t.resetNext now clock todo = some t') :
    ∃ evs', s.Batch now t' (evs ++ evs') := by
  cases todo with
  | nil =>
    obtain ⟨u, hu, rfl⟩ := Option.map_eq_some_iff.mp ht
    obtain ⟨fd, rfl⟩ := rearm_eq hu
    refine ⟨[], ?_⟩
    rw [List.append_nil]
    refine h.goOn rfl rfl rfl ?_ ?_ .idle <;>
    · rw [hphase]
      rfl
  | cons e todo =>
    obtain ⟨u, hu, ht'⟩ := Option.map_eq_some_iff.mp ht
    by_cases hr : (u.repeats && !u.canceled) = true
    · rw [if_pos hr] at ht'
      subst ht'
      obtain ⟨hr, -⟩ := Bool.and_eq_true_iff.mp hr
      have hsame : u.restart now = { u with expiration := addTime now u.interval } := by
        rw [Timer.restart, if_pos hr]
      have hidx : (u.restart now).index = u.index := by rw [hsame]
      refine ⟨[.requeued (u.restart now).index (u.restart now).expiration], h.settle hinv hphase hu
        rfl rfl (fun f hf => Sound.indexOf_update _ hf) ?_ rfl
        (by rintro _ _ ⟨⟩) (by rintro _ _ ⟨⟩) ?_ ?_⟩
      · intro f hf
        rw [Q.contents_push]
        exact Multiset.mem_cons_of_mem hf
      · intro i hi
        rw [hidx]
        simp [requeues, Ne.symm hi]
      · intro iv hadd _ _
        have hexp : (u.restart now).expiration = addTime now iv := by
          rw [hsame, hinv.added_once _ _ _ hadd (hinv.added _ u hu)]
        refine ⟨?_, ?_, ?_⟩
        · rw [hidx, hexp]
          simp [requeues]
        · rw [Q.contents_push, hexp]
          exact Multiset.mem_cons_self _ _
        · have hold : indexOf t.timers ⟨addTime now iv, e.timer⟩ = u.index := by
            rw [indexOf, hu]
            rfl
          exact (Sound.indexOf_replace hu hidx _).trans hold
    · rw [if_neg hr] at ht'
      subst ht'
      refine ⟨_, h.settle hinv hphase hu rfl rfl (fun f hf => Sound.indexOf_update _ hf)
        (fun _ => id) rfl (by rintro _ _ ⟨⟩) (by rintro _ _ ⟨⟩) (fun _ _ => rfl) ?_⟩
      intro iv hadd hpos hnot
      -- a timer that repeats and is not cancelled is requeued
      refine absurd ?_ hr
      rw [hinv.repeats _ u hu, ← hinv.added_once _ _ _ hadd (hinv.added _ u hu), hpos]
      have hc : u.canceled = false := by
        rw [← Bool.not_eq_true, hinv.canceled _ u hu]
        exact hnot
      rw [hc]
      rfl

/-- **Every action but another `handleRead` keeps the batch.** -/
theorem Batch.step {s t t' : TimerQueue Q} {now : Timestamp} {evs : List TimerEvent} {a : Action}
    (h : s.Batch now t evs) (hinv : t.Inv) (ha : ∀ now', a ≠ .handleRead now')
    (ht : t.step a = some t') : ∃ evs', s.Batch now t' (evs ++ evs') := by
  have hp := h.progress
  cases a with
  | addTimer timer expiration interval clock =>
    rw [TimerQueue.step] at ht
    split_ifs at ht with hcond
    cases ht
    exact ⟨_, h.addTimer hinv expiration interval clock hcond.2.2⟩
  | cancelInLoop timer =>
    rw [TimerQueue.step] at ht
    split_ifs at ht
    obtain ⟨ev, hev⟩ := h.cancelInLoop hinv ht
    exact ⟨[ev], hev⟩
  | handleRead now' => exact absurd rfl (ha now')
  | turn =>
    cases hphase : t.phase with
    | dispatching now' done todo =>
      rw [TimerQueue.step, hphase] at ht
      rw [hphase] at hp
      cases hp
      exact h.turn hphase ht
    | _ => rw [TimerQueue.step, hphase] at ht; cases ht
  | callbackReturns =>
    cases hphase : t.phase with
    | calling now' done todo =>
      rw [TimerQueue.step, hphase] at ht
      cases ht
      rw [hphase] at hp
      cases hp with
      | calling hd hr =>
        refine ⟨[], ?_⟩
        rw [List.append_nil]
        refine h.goOn rfl rfl rfl ?_ ?_ (.dispatching hd hr) <;>
        · rw [hphase]
          rfl
    | _ => rw [TimerQueue.step, hphase] at ht; cases ht
  | resetNext clock =>
    cases hphase : t.phase with
    | resetting now' todo =>
      rw [TimerQueue.step, hphase] at ht
      rw [hphase] at hp
      cases hp
      exact h.resetNext hinv hphase ht
    | _ => rw [TimerQueue.step, hphase] at ht; cases ht

/-- **One `handleRead` and what follows it**, by induction on the run. -/
theorem Batch.of_exec {s t : TimerQueue Q} {now : Timestamp} {as : List Action} (h : s.Inv)
    (ht : Runs.exec TimerQueue.step s (.handleRead now :: as) = some t)
    (has : ∀ now', .handleRead now' ∉ as) : t.Inv ∧ ∃ evs, s.Batch now t evs := by
  rw [Runs.exec_cons] at ht
  obtain ⟨t₀, ht₀, hrun⟩ := Option.bind_eq_some_iff.mp ht
  have hread : s.handleRead now = some t₀ := by
    rw [TimerQueue.step] at ht₀
    split_ifs at ht₀
    exact ht₀
  refine Runs.exec_invariant (G := fun _ a => ∀ now', a ≠ Action.handleRead now')
    (I := fun u => u.Inv ∧ ∃ evs, s.Batch now u evs)
    ⟨h.step ht₀, [], Batch.handleRead h hread⟩ ?_ ?_ hrun
  · rintro u a u' ⟨hu, evs, hb⟩ ha hstep
    obtain ⟨evs', hb'⟩ := hb.step hu ha hstep
    exact ⟨hu.step hstep, evs ++ evs', hb'⟩
  · rintro done a hd u - now' rfl
    exact has now' (hd.subset (List.mem_append_right _ List.mem_cons_self))

end TimerQueue

end Net

end Muduo
