import Mathlib.Algebra.Order.Ring.Int
import Mathlib.Data.List.Perm.Subperm
import Mathlib.Logic.Function.Basic
import Muduo.Foundations.Runs

/-! # `EpollPoller::poll`

`events_` of `muduo/net/poller/EpollPoller.cc`, the vector that `epoll_wait` writes to. It has room for
16 events, and twice as many after each `poll` that has filled it. `epoll_wait` reports no more
channels than there is room for, though more may be ready.

* **`EventList.poll_reports`**: `poll` reads what `epoll_wait` has just written and nothing else, and
  hands over exactly the channels that were reported, with their events;
* **`EventList.shortPolls_le`**: while at most `n` channels are ready at a time, only as many polls
  leave one of them out as it takes to double 16 up to `n`. -/

namespace Muduo

namespace Net

open Function (update)

/-- `kInitEventListSize`. -/
def kInitEventListSize : ℕ := 16

/-- An `EpollPoller` and the loop that polls, where `χ` are the channels. -/
structure EventList (χ : Type*) where
  /-- `events_`: `data.ptr` and `events` of each entry. Those made by `resize` have a null
  pointer. -/
  events : List (Option (χ × ℕ))
  /-- `revents_` of each channel. -/
  revents : χ → ℕ
  /-- `activeChannels_`. -/
  activeChannels : List χ
  /-- The polls that have left out a channel that was ready. -/
  shortPolls : ℕ

namespace EventList

variable {χ : Type*}

/-- `EpollPoller(loop)`. -/
def new : EventList χ := ⟨List.replicate kInitEventListSize none, fun _ => 0, [], 0⟩

/-- What `epoll_wait` does. -/
inductive Waited (χ : Type*)
  /-- It answers -1. -/
  | failed
  /-- The channels `ready` have events, and those in `reported` are reported. With none of them ready
  it has timed out. -/
  | events (ready reported : List (χ × ℕ))

/-- `epoll_wait` reports distinct channels that are ready: all of them, or as many as there is room
for. -/
def Waited.Fits (size : ℕ) : Waited χ → Prop
  | .failed => True
  | .events ready reported =>
    reported.Subperm ready ∧ (reported.map Prod.fst).Nodup ∧
      reported.length = min ready.length size

variable [DecidableEq χ]

instance (size : ℕ) : (w : Waited χ) → Decidable (w.Fits size)
  | .failed => .isTrue trivial
  | .events ready reported =>
    inferInstanceAs (Decidable (reported.Subperm ready ∧ _ ∧ _))

/-- One round of the loop of `fillActiveChannels`. A read outside of `events_` or a null pointer ends
the run. -/
def fillActiveChannel (s : EventList χ) (i : ℕ) : Option (EventList χ) :=
  match s.events[i]? with
  | some (some (channel, events)) =>
    some { s with
      revents := update s.revents channel events
      activeChannels := s.activeChannels ++ [channel] }
  | _ => none

/-- `fillActiveChannels(numEvents, activeChannels)`. -/
def fillActiveChannels (s : EventList χ) (numEvents : ℕ) : Option (EventList χ) :=
  (List.range numEvents).foldlM fillActiveChannel s

/-- `events_.resize(2*events_.size())`. -/
def resize (s : EventList χ) : EventList χ :=
  { s with events := s.events ++ List.replicate s.events.length none }

/-- `activeChannels_.clear()` and `poll(timeOutMs, &activeChannels_)`. -/
def poll (s : EventList χ) : Waited χ → Option (EventList χ)
  | .failed => some { s with activeChannels := [] }
  | .events ready reported =>
    let numEvents := reported.length
    let s := { s with
      events := reported.map some ++ s.events.drop numEvents
      activeChannels := []
      shortPolls := s.shortPolls + if numEvents < ready.length then 1 else 0 }
    if 0 < numEvents then
      (s.fillActiveChannels numEvents).map fun s =>
        if numEvents = s.events.length then s.resize else s
    else some s

omit [DecidableEq χ] in
/-- What `epoll_wait` does fits the room that it is given. -/
def Fits (s : EventList χ) (w : Waited χ) : Prop := w.Fits s.events.length

instance (s : EventList χ) (w : Waited χ) : Decidable (s.Fits w) :=
  inferInstanceAs (Decidable (w.Fits s.events.length))

/-! ## `fillActiveChannels` -/

variable {s t : EventList χ} {ready reported : List (χ × ℕ)} {n : ℕ}

/-- What becomes of the `revents_`. -/
def setRevents (revents : χ → ℕ) (reported : List (χ × ℕ)) : χ → ℕ :=
  reported.foldl (fun f e => update f e.1 e.2) revents

omit [DecidableEq χ] in
theorem getElem?_events {rest : List (Option (χ × ℕ))} {i : ℕ} (hi : i < reported.length) :
    (reported.map some ++ rest)[i]? = some (some reported[i]) := by
  rw [List.getElem?_append_left (by simpa using hi), List.getElem?_map,
    List.getElem?_eq_getElem hi, Option.map_some]

/-- **The loop** goes through what has just been written, for any number of rounds up to that. -/
theorem fillActiveChannels_eq {rest : List (Option (χ × ℕ))}
    (hevents : s.events = reported.map some ++ rest) (hn : n ≤ reported.length) :
    s.fillActiveChannels n = some { s with
      revents := setRevents s.revents (reported.take n)
      activeChannels := s.activeChannels ++ (reported.take n).map Prod.fst } := by
  induction n with
  | zero =>
    simp [fillActiveChannels, setRevents]
  | succ n ih =>
    have hlt : n < reported.length := hn
    have hround := ih hlt.le
    rw [fillActiveChannels] at hround ⊢
    rw [List.range_succ, List.foldlM_append, hround]
    simp only [Option.bind_eq_bind, Option.bind_some, List.foldlM_cons, List.foldlM_nil,
      fillActiveChannel, hevents, getElem?_events hlt]
    rw [List.take_succ_eq_append_getElem hlt]
    simp only [setRevents, List.foldl_append, List.foldl_cons, List.foldl_nil, List.map_append,
      List.map_cons, List.map_nil, List.append_assoc]
    rfl

/-- A channel keeps the events that are reported of it. -/
theorem setRevents_of_mem {revents : χ → ℕ} (hnd : (reported.map Prod.fst).Nodup) {c : χ} {m : ℕ}
    (hc : (c, m) ∈ reported) : setRevents revents reported c = m := by
  induction reported using List.reverseRecOn with
  | nil => cases hc
  | append_singleton reported e ih =>
    rw [List.map_append, List.nodup_append] at hnd
    rw [setRevents, List.foldl_append, List.foldl_cons, List.foldl_nil]
    rw [List.mem_append, List.mem_singleton] at hc
    rcases hc with hc | rfl
    · have hne : c ≠ e.1 := hnd.2.2 c (List.mem_map_of_mem hc) e.1 (by simp)
      rw [Function.update_of_ne hne]
      exact ih hnd.1 hc
    · exact Function.update_self _ _ _

/-- The others keep what they had. -/
theorem setRevents_of_notMem {revents : χ → ℕ} {c : χ} (hc : c ∉ reported.map Prod.fst) :
    setRevents revents reported c = revents c := by
  induction reported using List.reverseRecOn with
  | nil => rfl
  | append_singleton reported e ih =>
    rw [List.map_append, List.mem_append, not_or] at hc
    rw [setRevents, List.foldl_append, List.foldl_cons, List.foldl_nil,
      Function.update_of_ne (by simpa using hc.2)]
    exact ih hc.1

/-! ## One poll -/

omit [DecidableEq χ] in
/-- The entries that `epoll_wait` has not written stay, and their number with it. -/
theorem length_written (h : reported.length ≤ s.events.length) :
    (reported.map some ++ s.events.drop reported.length).length = s.events.length := by
  rw [List.length_append, List.length_map, List.length_drop]
  omega

/-- **What a poll does**, whatever `epoll_wait` reports. -/
theorem poll_events (ready : List (χ × ℕ)) (hlen : reported.length ≤ s.events.length) :
    ∃ t, s.poll (.events ready reported) = some t ∧
      t.activeChannels = reported.map Prod.fst ∧ t.revents = setRevents s.revents reported ∧
      t.shortPolls = s.shortPolls + (if reported.length < ready.length then 1 else 0) ∧
      t.events.length = if 0 < reported.length ∧ reported.length = s.events.length then
        2 * s.events.length else s.events.length := by
  have hwritten := length_written hlen
  by_cases hpos : 0 < reported.length
  · have hfill := fun revents shortPolls => @fillActiveChannels_eq χ _
      ⟨reported.map some ++ s.events.drop reported.length, revents, [], shortPolls⟩ reported _ _ rfl
      (le_refl reported.length)
    simp only [poll, if_pos hpos, hfill, Option.map_some, Option.some_inj, exists_eq_left', hwritten,
      List.take_length, List.nil_append]
    by_cases hfull : reported.length = s.events.length
    · rw [if_pos hfull]
      refine ⟨rfl, rfl, rfl, ?_⟩
      have hboth : 0 < reported.length ∧ reported.length = s.events.length := ⟨hpos, hfull⟩
      simp only [if_pos hboth, resize, List.length_append, List.length_replicate, hwritten]
      omega
    · rw [if_neg hfull]
      refine ⟨rfl, rfl, rfl, ?_⟩
      have hnot : ¬(0 < reported.length ∧ reported.length = s.events.length) :=
        fun hboth => hfull hboth.2
      rw [if_neg hnot]
      exact hwritten
  · obtain rfl : reported = [] := List.length_eq_zero_iff.mp (by omega)
    exact ⟨_, rfl, rfl, rfl, rfl, rfl⟩

/-! ## Any number of polls -/

/-- There is always room. -/
def Room (s : EventList χ) : Prop := 0 < s.events.length

/-- What the loop gets to see of a poll: the channels that `epoll_wait` has reported, with the events
that it has reported of them, and one of them if any is ready. -/
def Reports (s : EventList χ) (w : Waited χ) (t : EventList χ) : Prop :=
  match w with
  | .failed => t.activeChannels = [] ∧ t.revents = s.revents
  | .events ready reported =>
    t.activeChannels = reported.map Prod.fst ∧ (t.activeChannels = [] ↔ ready = []) ∧
      ∀ c, (∀ m, (c, m) ∈ reported → t.revents c = m) ∧
        (c ∉ t.activeChannels → t.revents c = s.revents c)

/-- A poll is possible, reports and leaves room. -/
theorem Room.poll {w : Waited χ} (hs : s.Room) (hw : s.Fits w) :
    ∃ t, s.poll w = some t ∧ t.Room ∧ Reports s w t := by
  cases w with
  | failed => exact ⟨_, rfl, hs, rfl, rfl⟩
  | events ready reported =>
    obtain ⟨-, hnd, hlen⟩ := hw
    have hle : reported.length ≤ s.events.length := hlen ▸ min_le_right _ _
    obtain ⟨t, ht, hactive, hrevents, -, hsize⟩ := poll_events ready hle
    refine ⟨t, ht, ?_, hactive, ?_, fun c => ⟨fun m hm => ?_, fun hc => ?_⟩⟩
    · unfold Room at hs ⊢
      split at hsize <;> omega
    · -- with room for one, something is reported as soon as something is ready
      unfold Room at hs
      rw [hactive, List.map_eq_nil_iff, ← List.length_eq_zero_iff, ← List.length_eq_zero_iff]
      omega
    · rw [hrevents]
      exact setRevents_of_mem hnd hm
    · rw [hactive] at hc
      rw [hrevents]
      exact setRevents_of_notMem hc

/-- **A poll hands over what `epoll_wait` reports.** In every run `poll` reads the entries that have
just been written, never past them and never a null pointer. Each time the active channels are those
that were reported, with their events, and every other channel keeps its `revents_`; if a channel is
ready then some channel is handed over. -/
theorem poll_reports {ws : List (Waited χ)} (hws : Runs.Guarded poll Fits new ws) :
    ∃ s, Runs.exec poll new ws = some s ∧ Runs.Each poll Reports new ws := by
  have hroom : (new : EventList χ).Room := by
    simp [Room, new, kInitEventListSize]
  have hpoll {s t : EventList χ} {w : Waited χ} (hs : s.Room) (hw : s.Fits w)
      (ht : s.poll w = some t) : t.Room ∧ Reports s w t := by
    obtain ⟨u, hu, hboth⟩ := hs.poll hw
    cases ht.symm.trans hu
    exact hboth
  obtain ⟨s, hs, -⟩ := Runs.exec_safe (I := Room) hroom
    (fun s w hs hw => (hs.poll hw).imp fun t ht => ⟨ht.1, ht.2.1⟩) hws
  exact ⟨s, hs, hws.each hroom (fun s w t hs hw ht => (hpoll hs hw ht).1)
    (fun s w t hs hw ht => (hpoll hs hw ht).2)⟩

/-- Of 17 channels that are ready, 16 are reported, and all of them after that. -/
def seventeen : List (Waited ℕ) :=
  let ready := (List.range 17).map fun c => (c, 1)
  [.events ready (ready.drop 1), .failed, .events ready ready, .events [] []]

theorem poll_reports_seventeen :
    Runs.Guarded poll Fits new seventeen ∧
      ∃ s, Runs.exec poll new seventeen = some s ∧ Runs.Each poll Reports new seventeen := by
  have hws : Runs.Guarded poll Fits new seventeen := by decide
  exact ⟨hws, poll_reports hws⟩

/-! ## The polls that leave something out -/

/-- At most `n` channels are ready. -/
def Waited.Bounded (n : ℕ) : Waited χ → Prop
  | .failed => True
  | .events ready _ => ready.length ≤ n

/-- There is room for 16 channels, doubled `k` times. Each short poll is one that doubles, and both
stop at `n`. -/
def Doubled (n k : ℕ) (s : EventList χ) : Prop :=
  s.events.length = kInitEventListSize * 2 ^ k ∧ s.shortPolls ≤ k ∧
    (k = 0 ∨ s.events.length ≤ 2 * n) ∧
    (s.shortPolls = 0 ∨ kInitEventListSize * 2 ^ s.shortPolls < 2 * n)

/-- A poll that leaves a channel out fills `events_`, which then doubles. -/
theorem Doubled.poll {k : ℕ} {w : Waited χ} (h : s.Doubled n k) (hw : s.Fits w)
    (hn : w.Bounded n) (ht : s.poll w = some t) : ∃ k, t.Doubled n k := by
  obtain ⟨hsize, hshort, hroom, hlog⟩ := h
  cases w with
  | failed =>
    cases ht
    exact ⟨k, hsize, hshort, hroom, hlog⟩
  | events ready reported =>
    obtain ⟨-, -, hlen⟩ := hw
    have hready : ready.length ≤ n := hn
    have hpos : 0 < s.events.length := by
      rw [hsize]
      exact Nat.mul_pos (by decide) (Nat.two_pow_pos k)
    obtain ⟨u, hu, -, -, hshort', hsize'⟩ :=
      poll_events ready (hlen ▸ min_le_right _ _ : reported.length ≤ s.events.length)
    cases ht.symm.trans hu
    have hmono : kInitEventListSize * 2 ^ s.shortPolls ≤ s.events.length := by
      rw [hsize]
      exact Nat.mul_le_mul_left _ (Nat.pow_le_pow_right (by omega) hshort)
    by_cases hfull : s.events.length ≤ ready.length
    · have hreported : reported.length = s.events.length := by omega
      rw [if_pos ⟨by omega, hreported⟩] at hsize'
      refine ⟨k + 1, by rw [hsize', hsize, Nat.pow_succ', mul_left_comm], ?_, by omega, ?_⟩
      · split at hshort' <;> omega
      · split at hshort'
        · rw [hshort', Nat.pow_succ, ← mul_assoc]
          omega
        · rw [hshort', Nat.add_zero]
          exact hlog
    · have hall : reported.length = ready.length := by omega
      rw [if_neg (by omega)] at hsize'
      rw [if_neg (by omega), Nat.add_zero] at hshort'
      unfold Doubled
      rw [hsize', hshort']
      exact ⟨k, hsize, hshort, hroom, hlog⟩

/-- **Few polls leave a channel out.** While at most `n` channels are ready at a time, the room
stays 16 times a power of two and at most `2 * n` once it has grown, and `m` polls that report less
than what is ready take more than `8 * 2 ^ m` channels. -/
theorem shortPolls_le {ws : List (Waited χ)} (hws : Runs.Guarded poll Fits new ws)
    (hn : ∀ w ∈ ws, w.Bounded n) {s : EventList χ} (hs : Runs.exec poll new ws = some s) :
    (∃ k, s.events.length = kInitEventListSize * 2 ^ k ∧ s.shortPolls ≤ k) ∧
      s.events.length ≤ max kInitEventListSize (2 * n) ∧
      (s.shortPolls = 0 ∨ kInitEventListSize * 2 ^ s.shortPolls < 2 * n) := by
  have hnew : ∃ k, (new : EventList χ).Doubled n k := by
    refine ⟨0, ?_⟩
    simp [Doubled, new]
  obtain ⟨k, hsize, hshort, hroom, hlog⟩ := Runs.exec_invariant
    (G := fun s w => s.Fits w ∧ w.Bounded n) (I := fun s => ∃ k, s.Doubled n k) hnew
    (fun s w t ⟨k, hk⟩ hw ht => hk.poll hw.1 hw.2 ht)
    (fun done w hd t ht => ⟨hws done w hd t ht, hn w (hd.subset (by simp))⟩) hs
  refine ⟨⟨k, hsize, hshort⟩, ?_, hlog⟩
  rcases hroom with rfl | hroom
  · rw [hsize]
    simp
  · exact hroom.trans (le_max_right _ _)

theorem shortPolls_le_seventeen : ∃ s : EventList ℕ, Runs.exec poll new seventeen = some s ∧
    (∃ k, s.events.length = kInitEventListSize * 2 ^ k ∧ s.shortPolls ≤ k) ∧
      s.events.length ≤ max kInitEventListSize (2 * 17) ∧
      (s.shortPolls = 0 ∨ kInitEventListSize * 2 ^ s.shortPolls < 2 * 17) := by
  have hws : Runs.Guarded poll Fits new seventeen := by decide
  have hn : ∀ w ∈ seventeen, w.Bounded 17 := by
    simp [seventeen, Waited.Bounded]
  obtain ⟨s, hs⟩ : ∃ s, Runs.exec poll new seventeen = some s :=
    Option.isSome_iff_exists.mp (by decide)
  exact ⟨s, hs, shortPolls_le hws hn hs⟩

end EventList

end Net

end Muduo
