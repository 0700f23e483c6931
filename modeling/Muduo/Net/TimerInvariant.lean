import Mathlib.Data.Multiset.MapFold
import Muduo.Net.TimerQueue

/-! # What every step of a `TimerQueue` keeps

`Sound` relates the `Timer` objects, the entries that point to them, the entries whose turn is still
to come, and the log. It knows nothing of the heap and of where the loop thread is: there is one
lemma for each way in which a timer changes (`Sound.add`, `Sound.cancel`, `Sound.ran`,
`Sound.skipped`, `Sound.requeue`, `Sound.delete`), and `Inv.step` reads every action as one of
these. -/

namespace Muduo

namespace Net

/-- The timer that an event is about. -/
def TimerEvent.index : TimerEvent → ℕ
  | .added i _ => i
  | .cancelled i => i
  | .ran _ i => i
  | .skipped _ i => i
  | .requeued i _ => i
  | .deleted i => i

/-- The timers deleted so far. -/
def deletions (log : List TimerEvent) : List ℕ :=
  log.filterMap fun
    | .deleted i => some i
    | _ => none

/-- The index of the timer that an entry points to; `0` is no index. -/
def indexOf (timers : ℕ → Option Timer) (e : Entry) : ℕ := (timers e.timer).elim 0 Timer.index

/-- Which event may come next: a timer is added once; a callback runs if its timer was not cancelled
and, unless it repeats, has not run before; it is skipped if its timer was cancelled. -/
def Lawful (log : List TimerEvent) : TimerEvent → Prop
  | .added i _ => ∀ interval, .added i interval ∉ log
  | .ran _ i => .cancelled i ∉ log ∧
      ∃ interval, .added i interval ∈ log ∧ (interval.positive = false → ∀ e, .ran e i ∉ log)
  | .skipped _ i => .cancelled i ∈ log
  | _ => True

/-- What holds of the objects, the entries that point to them, the entries whose turn is to come,
the number of timers created and the log. -/
structure Sound (timers : ℕ → Option Timer) (entries pending : Multiset Entry) (numCreated : ℕ)
    (log : List TimerEvent) : Prop where
  /-- An entry points to a live timer and has its expiration. -/
  live : ∀ e ∈ entries, ∃ t, timers e.timer = some t ∧ t.expiration = e.expiration
  bound : ∀ e ∈ entries, e.timer < UINTPTR_MAX
  /-- No two entries point to one timer. -/
  nodup : (entries.map Entry.timer).Nodup
  /-- Every timer created has an entry or is deleted, and only once. -/
  conserved : entries.map (indexOf timers) + (deletions log : Multiset ℕ) =
    (Multiset.range numCreated).map (· + 1)
  injective : ∀ a b t u, timers a = some t → timers b = some u → t.index = u.index → a = b
  canceled : ∀ a t, timers a = some t → (t.canceled = true ↔ .cancelled t.index ∈ log)
  repeats : ∀ a t, timers a = some t → t.repeats = (t.interval.positive && !t.canceled)
  added : ∀ a t, timers a = some t → .added t.index t.interval ∈ log
  added_once : ∀ i iv iv', .added i iv ∈ log → .added i iv' ∈ log → iv = iv'
  index_le : ∀ ev ∈ log, ev.index ≤ numCreated
  pending_le : pending ≤ entries
  /-- Before its turn, a timer that does not repeat has not run. -/
  pending_fresh : ∀ e ∈ pending, ∀ t, timers e.timer = some t → t.interval.positive = false →
    ∀ e', .ran e' t.index ∉ log
  lawful : Runs.Justified Lawful log

namespace Sound

open Function (update)

variable {timers : ℕ → Option Timer} {entries pending : Multiset Entry} {n : ℕ}
  {log : List TimerEvent}

theorem new : Sound (fun _ => none) 0 0 0 [] := by
  refine ⟨?_, ?_, ?_, ?_, ?_, ?_, ?_, ?_, ?_, ?_, ?_, ?_, Runs.justified_nil⟩ <;>
    simp [deletions]

/-- A timer's index is among those given out. -/
theorem timer_index_le (h : Sound timers entries pending n log) {a : ℕ} {t : Timer}
    (ht : timers a = some t) : t.index ≤ n :=
  h.index_le _ (h.added a t ht)

/-- The numbers in the log after one more event. -/
theorem index_le_concat (h : Sound timers entries pending n log) {m : ℕ} (hnm : n ≤ m)
    {ev : TimerEvent} (hev : ev.index ≤ m) : ∀ ev' ∈ log ++ [ev], ev'.index ≤ m := by
  intro ev' hev'
  rcases List.mem_append.mp hev' with hev' | hev'
  · exact (h.index_le ev' hev').trans hnm
  · rwa [List.mem_singleton.mp hev']

/-- The address of one entry is not the address of another. -/
theorem timer_ne {e f : Entry} (hnd : ((e ::ₘ entries).map Entry.timer).Nodup) (hf : f ∈ entries) :
    f.timer ≠ e.timer := by
  rw [Multiset.map_cons, Multiset.nodup_cons] at hnd
  rintro heq
  exact hnd.1 (heq ▸ Multiset.mem_map_of_mem _ hf)

/-- An object that an entry does not point to does not matter for its index. -/
theorem indexOf_update {a : ℕ} {e : Entry} (x : Option Timer) (he : e.timer ≠ a) :
    indexOf (update timers a x) e = indexOf timers e := by
  rw [indexOf, indexOf, Function.update_of_ne he]

theorem map_indexOf_update {a : ℕ} (x : Option Timer) (ha : ∀ e ∈ entries, e.timer ≠ a) :
    entries.map (indexOf (update timers a x)) = entries.map (indexOf timers) :=
  Multiset.map_congr rfl fun e he => indexOf_update x (ha e he)

theorem update_eq_some {a b : ℕ} {x : Option Timer} {u : Timer}
    (hu : update timers a x b = some u) : b = a ∧ x = some u ∨ b ≠ a ∧ timers b = some u := by
  by_cases hb : b = a
  · subst hb
    rw [Function.update_self] at hu
    exact .inl ⟨rfl, hu⟩
  · rw [Function.update_of_ne hb] at hu
    exact .inr ⟨hb, hu⟩

/-- `new Timer` and the push of its entry. -/
theorem add (h : Sound timers entries pending n log) {a : ℕ} (expiration : Timestamp)
    (interval : Seconds) (hfree : timers a = none) (ha : a < UINTPTR_MAX) :
    Sound (update timers a (some (.new expiration interval (n + 1))))
      (⟨expiration, a⟩ ::ₘ entries) (⟨expiration, a⟩ ::ₘ pending) (n + 1)
      (log ++ [.added (n + 1) interval]) := by
  have hne : ∀ e ∈ entries, e.timer ≠ a := by
    rintro e he rfl
    obtain ⟨t, ht, -⟩ := h.live e he
    rw [hfree] at ht
    cases ht
  have hcase {b : ℕ} {t : Timer}
      (ht : update timers a (some (.new expiration interval (n + 1))) b = some t) :
      b = a ∧ t = .new expiration interval (n + 1) ∨ b ≠ a ∧ timers b = some t :=
    (update_eq_some ht).imp_left fun hx => ⟨hx.1, (Option.some.inj hx.2).symm⟩
  -- `n + 1` has not been given out before
  have hold {i : ℕ} (ev : TimerEvent) (hev : ev ∈ log) (hi : ev.index = i) : i ≠ n + 1 := by
    have := h.index_le ev hev
    omega
  constructor
  case live =>
    -- the new entry has the new timer, and the other timers are where they were
    intro e he
    rcases Multiset.mem_cons.mp he with rfl | he
    · exact ⟨_, Function.update_self .., rfl⟩
    · rw [Function.update_of_ne (hne e he)]
      exact h.live e he
  case bound =>
    intro e he
    rcases Multiset.mem_cons.mp he with rfl | he
    · exact ha
    · exact h.bound e he
  case nodup =>
    -- the address was free, so no other entry has it
    rw [Multiset.map_cons, Multiset.nodup_cons]
    refine ⟨fun hm => ?_, h.nodup⟩
    obtain ⟨e, he, heq⟩ := Multiset.mem_map.mp hm
    exact hne e he heq
  case conserved =>
    -- the number `n + 1` is given out
    have hnew :
        indexOf (update timers a (some (.new expiration interval (n + 1)))) ⟨expiration, a⟩ =
        n + 1 := by
      rw [indexOf, Function.update_self]
      rfl
    have hdel : deletions (log ++ [.added (n + 1) interval]) = deletions log := by
      simp [deletions]
    rw [Multiset.map_cons, hnew, map_indexOf_update _ hne, hdel, Multiset.cons_add, h.conserved,
      Multiset.range_succ, Multiset.map_cons]
  case injective =>
    -- the numbers of the other timers are at most `n`
    intro b c t u hb hc heq
    rcases hcase hb with ⟨rfl, rfl⟩ | ⟨-, hb'⟩ <;> rcases hcase hc with ⟨rfl, rfl⟩ | ⟨-, hc'⟩
    · rfl
    · exact absurd (h.timer_index_le hc') (heq ▸ Nat.not_succ_le_self n)
    · exact absurd (h.timer_index_le hb') (heq ▸ Nat.not_succ_le_self n)
    · exact h.injective b c t u hb' hc' heq
  case canceled =>
    intro b t hb
    rcases hcase hb with ⟨rfl, rfl⟩ | ⟨-, hb⟩
    · have hnot : .cancelled (n + 1) ∉ log := fun hm => hold _ hm rfl rfl
      simp [Timer.new, hnot]
    · rw [h.canceled b t hb]
      simp
  case repeats =>
    intro b t hb
    rcases hcase hb with ⟨rfl, rfl⟩ | ⟨-, hb⟩
    · simp [Timer.new]
    · exact h.repeats b t hb
  case added =>
    intro b t hb
    rcases hcase hb with ⟨rfl, rfl⟩ | ⟨-, hb⟩
    · simp [Timer.new]
    · exact List.mem_append_left _ (h.added b t hb)
  case added_once =>
    -- no event so far has the number `n + 1`
    intro i iv iv' hi hi'
    simp only [List.mem_append, List.mem_singleton, TimerEvent.added.injEq] at hi hi'
    rcases hi with hi | ⟨rfl, rfl⟩ <;> rcases hi' with hi' | ⟨hi', rfl⟩
    · exact h.added_once i iv iv' hi hi'
    · exact absurd hi' (hold _ hi rfl)
    · exact absurd rfl (hold _ hi' rfl)
    · rfl
  case index_le => exact h.index_le_concat (Nat.le_succ n) le_rfl
  case pending_le =>
    exact Multiset.cons_le_cons _ h.pending_le
  case pending_fresh =>
    intro e he t ht hone e' hran
    have hran : .ran e' t.index ∈ log := by simpa using hran
    rcases hcase ht with ⟨-, rfl⟩ | ⟨hb, ht⟩
    · exact hold _ hran rfl rfl
    · rcases Multiset.mem_cons.mp he with rfl | he
      · exact hb rfl
      · exact h.pending_fresh e he t ht hone e' hran
  case lawful =>
    exact h.lawful.concat fun iv hm => hold _ hm rfl rfl

/-- An event that adds, cancels and deletes nothing. -/
theorem event (h : Sound timers entries pending n log) {ev : TimerEvent} {pending' : Multiset Entry}
    (hle : ev.index ≤ n) (hadded : ∀ i iv, ev ≠ .added i iv) (hcancelled : ∀ i, ev ≠ .cancelled i)
    (hdeleted : ∀ i, ev ≠ .deleted i) (hp : pending' ≤ entries)
    (hfresh : ∀ e ∈ pending', ∀ t, timers e.timer = some t → t.interval.positive = false →
      ∀ e', .ran e' t.index ∉ log ++ [ev])
    (hlawful : Lawful log ev) : Sound timers entries pending' n (log ++ [ev]) := by
  -- the timers, the deletions and the cancellations in the log stay what they are
  have hdel : deletions (log ++ [ev]) = deletions log := by
    cases ev with
    | deleted i => exact absurd rfl (hdeleted i)
    | _ => simp [deletions]
  have hmem {ev' : TimerEvent} (hne : ev' ≠ ev) : ev' ∈ log ++ [ev] ↔ ev' ∈ log := by
    simp [hne]
  refine ⟨h.live, h.bound, h.nodup, ?_, h.injective, ?_, h.repeats, ?_, ?_,
    h.index_le_concat le_rfl hle, hp, hfresh, h.lawful.concat hlawful⟩
  · rw [hdel]
    exact h.conserved
  · intro a t ht
    rw [hmem (hcancelled _).symm]
    exact h.canceled a t ht
  · intro a t ht
    exact List.mem_append_left _ (h.added a t ht)
  · intro i iv iv' hi hi'
    rw [hmem (hadded _ _).symm] at hi hi'
    exact h.added_once i iv iv' hi hi'

/-- The next entry's callback is run. -/
theorem ran {e : Entry} (h : Sound timers entries (e ::ₘ pending) n log) {t : Timer}
    (ht : timers e.timer = some t) (hc : t.canceled = false) :
    Sound timers entries pending n (log ++ [.ran e t.index]) := by
  have hsub : pending ≤ entries := (Multiset.le_cons_self _ _).trans h.pending_le
  have hnd := Multiset.nodup_of_le (Multiset.map_le_map h.pending_le) h.nodup
  refine h.event (h.timer_index_le ht) nofun nofun nofun hsub ?_ ?_
  · -- the timers whose turn is still to come are others
    intro f hf u hu hone e' hran
    rcases List.mem_append.mp hran with hran | hran
    · exact h.pending_fresh f (Multiset.mem_cons_of_mem hf) u hu hone e' hran
    · have hidx : u.index = t.index := by
        have := List.mem_singleton.mp hran
        simp only [TimerEvent.ran.injEq] at this
        exact this.2
      exact timer_ne hnd hf (h.injective _ _ u t hu ht hidx)
  · -- a callback runs for a timer that is not cancelled, and once if it does not repeat
    refine ⟨fun hm => ?_, t.interval, h.added _ t ht, fun hone e' => ?_⟩
    · rw [← h.canceled _ t ht, hc] at hm
      exact Bool.false_ne_true hm
    · exact h.pending_fresh e (Multiset.mem_cons_self _ _) t ht hone e'

/-- The next entry's callback is not run. -/
theorem skipped {e : Entry} (h : Sound timers entries (e ::ₘ pending) n log) {t : Timer}
    (ht : timers e.timer = some t) (hc : t.canceled = true) :
    Sound timers entries pending n (log ++ [.skipped e t.index]) := by
  refine h.event (h.timer_index_le ht) nofun nofun nofun
    ((Multiset.le_cons_self _ _).trans h.pending_le) ?_ ?_
  · intro f hf u hu hone e' hran
    have hran : .ran e' u.index ∈ log := by simpa using hran
    exact h.pending_fresh f (Multiset.mem_cons_of_mem hf) u hu hone e' hran
  · exact (h.canceled _ t ht).mp hc

/-- A timer replaced by one with the same index and interval: every object has one before. -/
theorem exists_before {a b : ℕ} {t t' u : Timer} (ht : timers a = some t)
    (hidx : t'.index = t.index) (hint : t'.interval = t.interval)
    (hu : update timers a (some t') b = some u) :
    ∃ u₀, timers b = some u₀ ∧ u₀.index = u.index ∧ u₀.interval = u.interval := by
  rcases update_eq_some hu with ⟨rfl, hx⟩ | ⟨-, hu⟩
  · cases hx
    exact ⟨t, ht, hidx.symm, hint.symm⟩
  · exact ⟨u, hu, rfl, rfl⟩

theorem indexOf_replace {a : ℕ} {t t' : Timer} (ht : timers a = some t)
    (hidx : t'.index = t.index) (e : Entry) :
    indexOf (update timers a (some t')) e = indexOf timers e := by
  by_cases he : e.timer = a
  · rw [indexOf, indexOf, he, Function.update_self, ht]
    exact hidx
  · exact indexOf_update _ he

theorem map_indexOf_replace {a : ℕ} {t t' : Timer} (ht : timers a = some t)
    (hidx : t'.index = t.index) :
    entries.map (indexOf (update timers a (some t'))) = entries.map (indexOf timers) :=
  Multiset.map_congr rfl fun e _ => indexOf_replace ht hidx e

/-- Timers keep their numbers apart when one is replaced. -/
theorem injective_replace (h : Sound timers entries pending n log) {a : ℕ} {t t' : Timer}
    (ht : timers a = some t) (hidx : t'.index = t.index) (hint : t'.interval = t.interval) :
    ∀ b c u v, update timers a (some t') b = some u → update timers a (some t') c = some v →
      u.index = v.index → b = c := by
  intro b c u v hu hv heq
  obtain ⟨u₀, hu₀, hidxu, -⟩ := exists_before ht hidx hint hu
  obtain ⟨v₀, hv₀, hidxv, -⟩ := exists_before ht hidx hint hv
  exact h.injective b c u₀ v₀ hu₀ hv₀ (hidxu.trans (heq.trans hidxv.symm))

/-- `cancel()` on a live timer. -/
theorem cancel (h : Sound timers entries pending n log) {a : ℕ} {t : Timer}
    (ht : timers a = some t) :
    Sound (update timers a (some t.cancel)) entries pending n (log ++ [.cancelled t.index]) := by
  have hbefore {b : ℕ} {u : Timer} (hu : update timers a (some t.cancel) b = some u) :=
    exists_before ht (rfl : t.cancel.index = t.index) rfl hu
  constructor
  case live =>
    -- `cancel()` keeps the expiration
    intro e he
    obtain ⟨u, hu, hexp⟩ := h.live e he
    by_cases hea : e.timer = a
    · rw [hea, ht] at hu
      cases hu
      rw [hea, Function.update_self]
      exact ⟨t.cancel, rfl, hexp⟩
    · rw [Function.update_of_ne hea]
      exact ⟨u, hu, hexp⟩
  case bound => exact h.bound
  case nodup => exact h.nodup
  case conserved =>
    have hdel : deletions (log ++ [.cancelled t.index]) = deletions log := by simp [deletions]
    rw [map_indexOf_replace ht (rfl : t.cancel.index = t.index), hdel]
    exact h.conserved
  case injective => exact h.injective_replace ht (rfl : t.cancel.index = t.index) rfl
  case canceled =>
    -- this timer and no other has become cancelled
    intro b u hu
    rw [List.mem_append, List.mem_singleton]
    rcases update_eq_some hu with ⟨rfl, hx⟩ | ⟨hb, hu⟩
    · cases hx
      exact iff_of_true rfl (.inr rfl)
    · rw [h.canceled b u hu, TimerEvent.cancelled.injEq]
      exact (or_iff_left fun heq => hb (h.injective b a u t hu ht heq)).symm
  case repeats =>
    intro b u hu
    rcases update_eq_some hu with ⟨rfl, hx⟩ | ⟨-, hu⟩
    · cases hx
      simp [Timer.cancel]
    · exact h.repeats b u hu
  case added =>
    intro b u hu
    obtain ⟨u₀, hu₀, hidx, hint⟩ := hbefore hu
    rw [← hidx, ← hint]
    exact List.mem_append_left _ (h.added b u₀ hu₀)
  case added_once =>
    intro i iv iv' hi hi'
    exact h.added_once i iv iv' (by simpa using hi) (by simpa using hi')
  case index_le => exact h.index_le_concat le_rfl (h.timer_index_le ht)
  case pending_le => exact h.pending_le
  case pending_fresh =>
    intro e he u hu hone e' hran
    obtain ⟨u₀, hu₀, hidx, hint⟩ := hbefore hu
    exact h.pending_fresh e he u₀ hu₀ (hint ▸ hone) e' (by simpa [hidx] using hran)
  case lawful => exact h.lawful.concat trivial

/-- A timer that repeats is restarted, and its new entry replaces the old one. -/
theorem restart {e : Entry} {t : Timer} (h : Sound timers (e ::ₘ entries) pending n log)
    (ht : timers e.timer = some t) (hrep : t.repeats = true) (hp : pending ≤ entries)
    (now : Timestamp) :
    Sound (update timers e.timer (some (t.restart now)))
      (⟨(t.restart now).expiration, e.timer⟩ ::ₘ entries)
      (⟨(t.restart now).expiration, e.timer⟩ ::ₘ pending) n log := by
  -- only the expiration changes
  have hsame : t.restart now = { t with expiration := addTime now t.interval } := by
    rw [Timer.restart, if_pos hrep]
  have hidx : (t.restart now).index = t.index := by rw [hsame]
  have hint : (t.restart now).interval = t.interval := by rw [hsame]
  have hbefore {b : ℕ} {u : Timer} (hu : update timers e.timer (some (t.restart now)) b = some u) :=
    exists_before ht hidx hint hu
  have hne {f : Entry} (hf : f ∈ entries) : f.timer ≠ e.timer := timer_ne h.nodup hf
  constructor
  case live =>
    -- the new entry has the new expiration of the timer
    intro f hf
    rcases Multiset.mem_cons.mp hf with rfl | hf
    · exact ⟨_, Function.update_self .., rfl⟩
    · rw [Function.update_of_ne (hne hf)]
      exact h.live f (Multiset.mem_cons_of_mem hf)
  case bound =>
    intro f hf
    rcases Multiset.mem_cons.mp hf with rfl | hf
    · exact h.bound e (Multiset.mem_cons_self _ _)
    · exact h.bound f (Multiset.mem_cons_of_mem hf)
  case nodup =>
    have hnd := h.nodup
    rw [Multiset.map_cons] at hnd ⊢
    exact hnd
  case conserved =>
    have hnew : indexOf (update timers e.timer (some (t.restart now)))
        ⟨(t.restart now).expiration, e.timer⟩ = indexOf timers e := by
      rw [indexOf, indexOf, Function.update_self, ht]
      exact hidx
    rw [← h.conserved, Multiset.map_cons, Multiset.map_cons, hnew, map_indexOf_replace ht hidx]
  case injective => exact h.injective_replace ht hidx hint
  case canceled =>
    intro b u hu
    rcases update_eq_some hu with ⟨rfl, hx⟩ | ⟨-, hu⟩
    · rw [← Option.some.inj hx, hsame]
      exact h.canceled _ t ht
    · exact h.canceled b u hu
  case repeats =>
    intro b u hu
    rcases update_eq_some hu with ⟨rfl, hx⟩ | ⟨-, hu⟩
    · rw [← Option.some.inj hx, hsame]
      exact h.repeats _ t ht
    · exact h.repeats b u hu
  case added =>
    intro b u hu
    obtain ⟨u₀, hu₀, hidx, hint⟩ := hbefore hu
    rw [← hidx, ← hint]
    exact h.added b u₀ hu₀
  case added_once => exact h.added_once
  case index_le => exact h.index_le
  case pending_le => exact Multiset.cons_le_cons _ hp
  case pending_fresh =>
    intro f hf u hu hone
    obtain ⟨u₀, hu₀, hidx, hint⟩ := hbefore hu
    rw [← hidx]
    rw [← hint] at hone
    rcases Multiset.mem_cons.mp hf with rfl | hf
    · -- it repeats
      have hpos := h.repeats _ t ht
      rw [ht] at hu₀
      cases hu₀
      rw [hrep, hone] at hpos
      exact absurd hpos (by simp)
    · exact h.pending_fresh f hf u₀ hu₀ hone
  case lawful => exact h.lawful

/-- `restart(now)` and the push of the new entry, in `reset`. -/
theorem requeue {e : Entry} {t : Timer} (h : Sound timers (e ::ₘ entries) pending n log)
    (ht : timers e.timer = some t) (hrep : t.repeats = true) (hp : pending ≤ entries)
    (now : Timestamp) :
    Sound (update timers e.timer (some (t.restart now)))
      (⟨(t.restart now).expiration, e.timer⟩ ::ₘ entries)
      (⟨(t.restart now).expiration, e.timer⟩ ::ₘ pending) n
      (log ++ [.requeued (t.restart now).index (t.restart now).expiration]) := by
  have hr := h.restart ht hrep hp now
  refine hr.event (hr.timer_index_le (Function.update_self ..)) nofun nofun nofun hr.pending_le ?_
    trivial
  intro f hf u hu hone e' hran
  exact hr.pending_fresh f hf u hu hone e' (by simpa using hran)

/-- `delete`, in `reset`. -/
theorem delete {e : Entry} {t : Timer} (h : Sound timers (e ::ₘ entries) pending n log)
    (ht : timers e.timer = some t) (hp : pending ≤ entries) :
    Sound (update timers e.timer none) entries pending n (log ++ [.deleted t.index]) := by
  have hne {f : Entry} (hf : f ∈ entries) : f.timer ≠ e.timer := timer_ne h.nodup hf
  have hbefore {b : ℕ} {u : Timer} (hu : update timers e.timer none b = some u) :
      timers b = some u := by
    rcases update_eq_some hu with ⟨-, hx⟩ | ⟨-, hu⟩
    · cases hx
    · exact hu
  constructor
  case live =>
    -- the timers of the other entries are still there
    intro f hf
    rw [Function.update_of_ne (hne hf)]
    exact h.live f (Multiset.mem_cons_of_mem hf)
  case bound =>
    exact fun f hf => h.bound f (Multiset.mem_cons_of_mem hf)
  case nodup =>
    have hnd := h.nodup
    rw [Multiset.map_cons, Multiset.nodup_cons] at hnd
    exact hnd.2
  case conserved =>
    -- the number moves from the entries to the deletions
    have hdel : deletions (log ++ [.deleted t.index]) = deletions log ++ [t.index] := by
      simp [deletions]
    have hidx : indexOf timers e = t.index := by
      rw [indexOf, ht]
      rfl
    rw [map_indexOf_update none fun f hf => hne hf, hdel, ← h.conserved, Multiset.map_cons, hidx,
      ← Multiset.coe_add, Multiset.coe_singleton, ← Multiset.add_assoc, Multiset.add_comm,
      Multiset.singleton_add, Multiset.cons_add]
  case injective =>
    exact fun b c u v hu hv => h.injective b c u v (hbefore hu) (hbefore hv)
  case canceled =>
    intro b u hu
    rw [h.canceled b u (hbefore hu)]
    simp
  case repeats =>
    exact fun b u hu => h.repeats b u (hbefore hu)
  case added =>
    exact fun b u hu => List.mem_append_left _ (h.added b u (hbefore hu))
  case added_once =>
    intro i iv iv' hi hi'
    exact h.added_once i iv iv' (by simpa using hi) (by simpa using hi')
  case index_le => exact h.index_le_concat le_rfl (h.timer_index_le ht)
  case pending_le => exact hp
  case pending_fresh =>
    intro f hf u hu hone e' hran
    exact h.pending_fresh f hf u (hbefore hu) hone e' (by simpa using hran)
  case lawful => exact h.lawful.concat trivial

end Sound

/-! ## Every action -/

namespace Phase

/-- The entries that are in no heap: the current batch. -/
def batch : Phase → List Entry
  | .idle => []
  | .dispatching _ done todo => done ++ todo
  | .calling _ done todo => done ++ todo
  | .resetting _ todo => todo

/-- The entries of the batch whose turn is still to come. -/
def waiting : Phase → List Entry
  | .idle => []
  | .dispatching _ _ todo => todo
  | .calling _ _ todo => todo
  | .resetting _ _ => []

end Phase

namespace TimerQueue

variable {Q : PriorityQueue Entry}

/-- The entries in the heap and in the batch. -/
def entries (s : TimerQueue Q) : Multiset Entry := Q.contents s.timerQueue + s.phase.batch

/-- The entries whose turn is still to come, in this batch or in another. -/
def pending (s : TimerQueue Q) : Multiset Entry := Q.contents s.timerQueue + s.phase.waiting

/-- The invariant. -/
def Inv (s : TimerQueue Q) : Prop := Sound s.timers s.entries s.pending s.numCreated s.log

theorem inv_new : (new : TimerQueue Q).Inv := by
  have h0 : (new : TimerQueue Q).entries = 0 := by
    rw [entries, new, Q.contents_new]
    rfl
  have h1 : (new : TimerQueue Q).pending = 0 := by
    rw [pending, new, Q.contents_new]
    rfl
  rw [Inv, h0, h1]
  exact Sound.new

theorem Inv.addTimer {s : TimerQueue Q} (h : s.Inv) {timer : ℕ} (expiration : Timestamp)
    (interval : Seconds) (clock : Timestamp) (hfree : s.timers timer = none)
    (ht : timer < UINTPTR_MAX) : (s.addTimer timer expiration interval clock).Inv := by
  rw [TimerQueue.addTimer]
  split_ifs <;>
  · rw [Inv, entries, pending]
    simp only [Q.contents_push, Multiset.cons_add, resetTimerfd]
    exact Sound.add h expiration interval hfree ht

theorem Inv.cancelInLoop {s s' : TimerQueue Q} (h : s.Inv) {timer : ℕ}
    (hs : s.cancelInLoop timer = some s') : s'.Inv := by
  obtain ⟨t, ht, rfl⟩ := Option.map_eq_some_iff.mp hs
  exact Sound.cancel h ht

/-- The entries that are due at `now`, in increasing order. -/
def due (s : TimerQueue Q) (now : Timestamp) : List Entry :=
  ((Q.contents s.timerQueue).filter (·.expiration ≤ now)).sort

/-- The bound of `getExpired` is above every entry that expires at `now`. -/
theorem Inv.lt_bound_iff {s : TimerQueue Q} (h : s.Inv) {now : Timestamp} {e : Entry}
    (he : e ∈ Q.contents s.timerQueue) : e < ⟨now, UINTPTR_MAX⟩ ↔ e.expiration ≤ now := by
  have hb := h.bound e (Multiset.mem_add.mpr (.inl he))
  rw [Entry.lt_iff, le_iff_lt_or_eq]
  exact or_congr_right (and_iff_left hb)

/-- `getExpired` takes the due entries out. -/
theorem Inv.exists_handleRead {s : TimerQueue Q} (h : s.Inv) (now : Timestamp) :
    ∃ q, s.handleRead now = some { s with
        timerQueue := q, timerfd := none, phase := .dispatching now [] (s.due now) } ∧
      Q.contents q + (s.due now : Multiset Entry) = Q.contents s.timerQueue := by
  obtain ⟨q, hpop, hq⟩ := PriorityQueue.popBelow_spec (⟨now, UINTPTR_MAX⟩ : Entry) s.timerQueue
  have hdue : Q.below ⟨now, UINTPTR_MAX⟩ s.timerQueue = s.due now := by
    rw [PriorityQueue.below, due, Multiset.filter_congr fun e he => h.lt_bound_iff he]
  refine ⟨q, ?_, ?_⟩
  · rw [TimerQueue.handleRead, getExpired, hpop, hdue, Option.map_some]
  · rw [hq, ← hdue, PriorityQueue.below, Multiset.sort_eq, Multiset.add_comm,
      Multiset.filter_add_not]

theorem Inv.handleRead {s s' : TimerQueue Q} (h : s.Inv) {now : Timestamp} (hidle : s.phase = .idle)
    (hs : s.handleRead now = some s') : s'.Inv := by
  obtain ⟨q, hread, hq⟩ := h.exists_handleRead now
  rw [hread] at hs
  cases hs
  have hentries : s.entries = Q.contents s.timerQueue := by
    rw [entries, hidle]
    exact Multiset.add_zero _
  have hpending : s.pending = Q.contents s.timerQueue := by
    rw [pending, hidle]
    exact Multiset.add_zero _
  rw [Inv, hentries, hpending, ← hq] at h
  exact h

/-- The timer of an entry is there. -/
theorem Inv.exists_timer {s : TimerQueue Q} (h : s.Inv) {e : Entry} (he : e ∈ s.entries) :
    ∃ t, s.timers e.timer = some t :=
  let ⟨t, ht, _⟩ := h.live e he
  ⟨t, ht⟩

theorem Inv.turn {s s' : TimerQueue Q} (h : s.Inv) {now : Timestamp} {done todo : List Entry}
    (hphase : s.phase = .dispatching now done todo) (hs : s.turn now done todo = some s') :
    s'.Inv := by
  rw [Inv, entries, pending, hphase] at h
  cases todo with
  | nil =>
    cases hs
    rw [Phase.batch, List.append_nil] at h
    exact h
  | cons e todo =>
    obtain ⟨t, ht, hs'⟩ := Option.map_eq_some_iff.mp hs
    -- the batch is the same, and `e` no longer waits
    have hbatch : (done ++ [e]) ++ todo = done ++ e :: todo := by simp
    rw [Phase.waiting, ← Multiset.cons_coe, Multiset.add_cons] at h
    by_cases hc : t.canceled = true
    · rw [if_pos hc] at hs'
      subst hs'
      rw [Inv, entries, Phase.batch, hbatch]
      exact Sound.skipped h ht hc
    · -- the callback is entered
      rw [if_neg hc] at hs'
      subst hs'
      rw [Inv, entries, Phase.batch, hbatch]
      exact Sound.ran h ht (by simpa using hc)

theorem Inv.resetNext {s s' : TimerQueue Q} (h : s.Inv) {now clock : Timestamp} {todo : List Entry}
    (hphase : s.phase = .resetting now todo) (hs : s.resetNext now clock todo = some s') :
    s'.Inv := by
  cases todo with
  | nil =>
    obtain ⟨u, hu, rfl⟩ := Option.map_eq_some_iff.mp hs
    obtain ⟨fd, rfl⟩ := rearm_eq hu
    rw [Inv, entries, pending, hphase] at h
    exact h
  | cons e todo =>
    obtain ⟨t, ht, hs'⟩ := Option.map_eq_some_iff.mp hs
    rw [Inv, entries, pending, hphase, Phase.batch, Phase.waiting, Multiset.coe_nil,
      Multiset.add_zero, ← Multiset.cons_coe, Multiset.add_cons] at h
    -- nothing of the batch waits any more: what waits is in the heap
    have hle := Multiset.le_add_right (Q.contents s.timerQueue) (todo : Multiset Entry)
    by_cases hr : (t.repeats && !t.canceled) = true
    · rw [if_pos hr] at hs'
      subst hs'
      simp only [Inv, entries, pending, Phase.batch, Phase.waiting, Q.contents_push,
        Multiset.cons_add, Multiset.coe_nil, Multiset.add_zero]
      exact Sound.requeue h ht (Bool.and_eq_true_iff.mp hr).1 hle now
    · rw [if_neg hr] at hs'
      subst hs'
      simp only [Inv, entries, pending, Phase.batch, Phase.waiting, Multiset.coe_nil,
        Multiset.add_zero]
      exact Sound.delete h ht hle

/-- **Every action keeps the invariant.** -/
theorem Inv.step {s s' : TimerQueue Q} {a : Action} (h : s.Inv) (hs : step s a = some s') :
    s'.Inv := by
  cases a with
  | addTimer timer expiration interval clock =>
    rw [TimerQueue.step] at hs
    split_ifs at hs with hcond
    cases hs
    exact h.addTimer expiration interval clock hcond.2.2 hcond.2.1
  | cancelInLoop timer =>
    rw [TimerQueue.step] at hs
    split_ifs at hs
    exact h.cancelInLoop hs
  | handleRead now =>
    rw [TimerQueue.step] at hs
    split_ifs at hs with hidle
    exact h.handleRead hidle hs
  | turn =>
    cases hphase : s.phase with
    | dispatching now done todo =>
      rw [TimerQueue.step, hphase] at hs
      exact h.turn hphase hs
    | _ => rw [TimerQueue.step, hphase] at hs; cases hs
  | callbackReturns =>
    cases hphase : s.phase with
    | calling now done todo =>
      rw [TimerQueue.step, hphase] at hs
      cases hs
      rw [Inv, entries, pending, hphase] at h
      exact h
    | _ => rw [TimerQueue.step, hphase] at hs; cases hs
  | resetNext clock =>
    cases hphase : s.phase with
    | resetting now todo =>
      rw [TimerQueue.step, hphase] at hs
      exact h.resetNext hphase hs
    | _ => rw [TimerQueue.step, hphase] at hs; cases hs

/-- **In every run the invariant holds.** -/
theorem Inv.of_exec {as : List Action} {s : TimerQueue Q}
    (h : Runs.exec TimerQueue.step (new : TimerQueue Q) as = some s) : s.Inv :=
  Runs.exec_induction inv_new (fun _ _ _ ht hs => ht.step hs) h

end TimerQueue

end Net

end Muduo
