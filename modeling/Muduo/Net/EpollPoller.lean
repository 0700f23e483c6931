import Mathlib.Data.Fintype.Basic
import Mathlib.Data.Nat.Bitwise
import Muduo.Net.TcpServer

/-! # `EpollPoller`

The three copies of a channel's registration in `muduo/net/poller/EpollPoller.cc`: `index_` and
`events_` in the channel, `channels_` in the poller, and the interest set in the kernel. An
assertion that fails ends the run.

**`EpollPoller.agrees_of_guarded`**: they agree, no assertion fails, and every `epoll_ctl` is legal,
for all channels whose fds are distinct while they are registered. -/

namespace Muduo

namespace Net

open Function (update)

/-- `kWriteEvent`: `POLLOUT`. -/
def Channel.kWriteEvent : ℕ := 4

/-- A function of `Channel` that changes `events_` and calls `update`. -/
inductive Interest
  | enableReading
  | disableReading
  | enableWriting
  | disableWriting
  | disableAll
deriving DecidableEq, Repr

/-- What becomes of `events_`. -/
def Interest.apply : Interest → ℕ → ℕ
  | enableReading, events => events ||| Channel.kReadEvent
  | disableReading, events => Nat.ldiff events Channel.kReadEvent
  | enableWriting, events => events ||| Channel.kWriteEvent
  | disableWriting, events => Nat.ldiff events Channel.kWriteEvent
  | disableAll, _ => Channel.kNoneEvent

/-- The operation of an `epoll_ctl`. -/
inductive CtlOp
  | add
  | mod
  | del
deriving DecidableEq, Repr

/-- A call of `epoll_ctl`. -/
structure Ctl where
  operation : CtlOp
  fd : ℕ
  /-- Whether it succeeds. -/
  legal : Bool
deriving DecidableEq, Repr

/-- An `EpollPoller`, its channels and the kernel's interest set. -/
structure EpollPoller (χ : Type*) where
  /-- The members of the channels. -/
  channel : χ → Channel
  /-- `channels_`. -/
  channels : ℕ → Option χ
  /-- The interest set of `epollfd_`: the mask of an fd, and its `data.ptr`. -/
  kernel : ℕ → Option (ℕ × χ)
  /-- The calls of `epoll_ctl`, in order. -/
  calls : List Ctl

namespace EpollPoller

variable {χ : Type*}

/-- Channels with the given fds, and a poller that knows none of them. -/
def new (fd : χ → ℕ) : EpollPoller χ where
  channel c := ⟨fd c, Channel.kNoneEvent, .kNew⟩
  channels _ := none
  kernel _ := none
  calls := []

/-- `epoll_ctl` succeeds: `ADD` on an absent fd, `MOD` and `DEL` on a present one. -/
def legal (s : EpollPoller χ) (operation : CtlOp) (fd : ℕ) : Bool :=
  match operation with
  | .add => (s.kernel fd).isNone
  | .mod => (s.kernel fd).isSome
  | .del => (s.kernel fd).isSome

variable [DecidableEq χ]

/-- `events_ = events`. -/
def setEvents (s : EpollPoller χ) (c : χ) (events : ℕ) : EpollPoller χ :=
  { s with channel := update s.channel c { s.channel c with events := events } }

/-- `setIndex(index)`. -/
def setIndex (s : EpollPoller χ) (c : χ) (index : Index) : EpollPoller χ :=
  { s with channel := update s.channel c { s.channel c with index := index } }

omit [DecidableEq χ] in
/-- `update(operation, channel)`. A call that fails has no effect. -/
def ctl (s : EpollPoller χ) (operation : CtlOp) (c : χ) : EpollPoller χ :=
  let fd := (s.channel c).fd
  let entry := match operation with
    | .del => none
    | _ => some ((s.channel c).events, c)
  { s with
    kernel := if s.legal operation fd then update s.kernel fd entry else s.kernel
    calls := s.calls ++ [⟨operation, fd, s.legal operation fd⟩] }

/-- `updateChannel(channel)`. -/
def updateChannel (s : EpollPoller χ) (c : χ) : Option (EpollPoller χ) :=
  let fd := (s.channel c).fd
  match (s.channel c).index with
  | .kNew =>
    if s.channels fd = none then
      some (({ s with channels := update s.channels fd (some c) }.setIndex c .kAdded).ctl .add c)
    else none
  | .kDeleted =>
    if s.channels fd = some c then some ((s.setIndex c .kAdded).ctl .add c) else none
  | .kAdded =>
    if s.channels fd = some c then
      if (s.channel c).isNoneEvent then some ((s.setIndex c .kDeleted).ctl .del c)
      else some (s.ctl .mod c)
    else none

/-- `removeChannel(channel)`. -/
def removeChannel (s : EpollPoller χ) (c : χ) : Option (EpollPoller χ) :=
  let fd := (s.channel c).fd
  if s.channels fd = some c ∧ (s.channel c).isNoneEvent = true then
    let s' : EpollPoller χ := { s with channels := update s.channels fd none }
    some ((if (s.channel c).index = .kAdded then s'.ctl .del c else s').setIndex c .kNew)
  else none

/-- `events_ = ...; update();` -/
def interest (s : EpollPoller χ) (c : χ) (i : Interest) : Option (EpollPoller χ) :=
  (s.setEvents c (i.apply (s.channel c).events)).updateChannel c

/-- What is done to a channel. -/
inductive Action (χ : Type*)
  | interest (c : χ) (i : Interest)
  | remove (c : χ)

/-- One action. -/
def step (s : EpollPoller χ) : Action χ → Option (EpollPoller χ)
  | .interest c i => s.interest c i
  | .remove c => s.removeChannel c

/-- The poller knows the channel. -/
def Registered (s : EpollPoller χ) (c : χ) : Prop := s.channels (s.channel c).fd = some c

/-- Registered channels have distinct fds, and only a registered channel without events is
removed. -/
def Allowed (s : EpollPoller χ) : Action χ → Prop
  | .interest c _ => ∀ d, d ≠ c → s.Registered d → (s.channel d).fd ≠ (s.channel c).fd
  | .remove c => s.Registered c ∧ (s.channel c).isNoneEvent = true

instance (s : EpollPoller χ) (c : χ) : Decidable (s.Registered c) :=
  inferInstanceAs (Decidable (s.channels (s.channel c).fd = some c))

instance [Fintype χ] (s : EpollPoller χ) : ∀ a, Decidable (s.Allowed a)
  | .interest c _ => inferInstanceAs
      (Decidable (∀ d, d ≠ c → s.Registered d → (s.channel d).fd ≠ (s.channel c).fd))
  | .remove c => inferInstanceAs (Decidable (s.Registered c ∧ (s.channel c).isNoneEvent = true))

/-- The three copies agree, where an unregistered channel is one with `IsNew`. -/
structure Agrees (s : EpollPoller χ) (IsNew : χ → Prop) : Prop where
  legal : ∀ call ∈ s.calls, call.legal = true
  added : ∀ c, (s.channel c).index = .kAdded ↔
    s.kernel (s.channel c).fd = some ((s.channel c).events, c)
  deleted : ∀ c, (s.channel c).index = .kDeleted → s.channels (s.channel c).fd = some c ∧
    s.kernel (s.channel c).fd = none ∧ (s.channel c).events = Channel.kNoneEvent
  new : ∀ c, (s.channel c).index = .kNew ↔ IsNew c

/-- Neither the poller nor the kernel has the channel's fd. -/
def InNeither (s : EpollPoller χ) (c : χ) : Prop :=
  s.channels (s.channel c).fd = none ∧ s.kernel (s.channel c).fd = none

/-- The channel's fd is registered for another channel. -/
def TakenOver (s : EpollPoller χ) (c : χ) : Prop :=
  ∃ d, d ≠ c ∧ s.Registered d ∧ (s.channel d).fd = (s.channel c).fd

/-! ## The invariant -/

/-- What `channels_` and the kernel say of the fd of the channel `c`, whose members are `k`. -/
inductive Slot (c : χ) (k : Channel) : Option χ → Option (ℕ × χ) → Prop
  | new (index : k.index = .kNew) : Slot c k none none
  | deleted (index : k.index = .kDeleted) (noneEvent : k.events = Channel.kNoneEvent) :
    Slot c k (some c) none
  | added (index : k.index = .kAdded) : Slot c k (some c) (some (k.events, c))

/-- The invariant. -/
structure Inv (s : EpollPoller χ) : Prop where
  slot : ∀ c, (s.channel c).index ≠ .kNew →
    Slot c (s.channel c) (s.channels (s.channel c).fd) (s.kernel (s.channel c).fd)
  channels : ∀ fd c, s.channels fd = some c → (s.channel c).fd = fd ∧ (s.channel c).index ≠ .kNew
  kernel : ∀ fd m c, s.kernel fd = some (m, c) → s.channels fd = some c

/-- The fd of the channel is free, or registered for the channel itself. -/
def Free (s : EpollPoller χ) (c : χ) : Prop :=
  s.channels (s.channel c).fd = none ∨ s.channels (s.channel c).fd = some c

/-- The state after an action on the channel `c`. -/
def put (s : EpollPoller χ) (c : χ) (k : Channel) (x : Option χ) (y : Option (ℕ × χ))
    (calls : List Ctl) : EpollPoller χ where
  channel := update s.channel c k
  channels := update s.channels (s.channel c).fd x
  kernel := update s.kernel (s.channel c).fd y
  calls := s.calls ++ calls

variable {s s' : EpollPoller χ} {c d : χ}

omit [DecidableEq χ] in
theorem Slot.eq_some {k : Channel} {x : Option χ} {y : Option (ℕ × χ)} (h : Slot c k x y)
    (hx : x = some d) : d = c ∧ k.index ≠ .kNew := by
  cases h with
  | new => cases hx
  | deleted hindex => exact ⟨(Option.some.inj hx).symm, by rw [hindex]; nofun⟩
  | added hindex => exact ⟨(Option.some.inj hx).symm, by rw [hindex]; nofun⟩

omit [DecidableEq χ] in
theorem Slot.channels_eq {k : Channel} {x : Option χ} {y : Option (ℕ × χ)} (h : Slot c k x y)
    (hk : k.index ≠ .kNew) : x = some c := by
  cases h with
  | new hindex => exact absurd hindex hk
  | deleted => rfl
  | added => rfl

omit [DecidableEq χ] in
theorem Inv.of_deleted (h : s.Inv) (hindex : (s.channel c).index = .kDeleted) :
    s.channels (s.channel c).fd = some c ∧ s.kernel (s.channel c).fd = none ∧
      (s.channel c).events = Channel.kNoneEvent := by
  have hslot := h.slot c (by rw [hindex]; nofun)
  generalize s.channels (s.channel c).fd = x, s.kernel (s.channel c).fd = y at hslot ⊢
  cases hslot with
  | new hnew => cases hnew.symm.trans hindex
  | deleted _ hnone => exact ⟨rfl, rfl, hnone⟩
  | added hadded => cases hadded.symm.trans hindex

omit [DecidableEq χ] in
theorem Inv.of_added (h : s.Inv) (hindex : (s.channel c).index = .kAdded) :
    s.channels (s.channel c).fd = some c ∧
      s.kernel (s.channel c).fd = some ((s.channel c).events, c) := by
  have hslot := h.slot c (by rw [hindex]; nofun)
  generalize s.channels (s.channel c).fd = x, s.kernel (s.channel c).fd = y at hslot ⊢
  cases hslot with
  | new hnew => cases hnew.symm.trans hindex
  | deleted hdeleted => cases hdeleted.symm.trans hindex
  | added => exact ⟨rfl, rfl⟩

omit [DecidableEq χ] in
/-- Who is registered. -/
theorem Inv.registered_iff (h : s.Inv) : s.Registered c ↔ (s.channel c).index ≠ .kNew :=
  ⟨fun hc => (h.channels _ c hc).2, fun hc => (h.slot c hc).channels_eq hc⟩

omit [DecidableEq χ] in
/-- Another channel that is registered has another fd. -/
theorem fd_ne (hfree : s.Free c) (hd : d ≠ c) (hreg : s.Registered d) :
    (s.channel d).fd ≠ (s.channel c).fd := by
  intro heq
  rw [Registered, heq] at hreg
  rcases hfree with hnone | hsome
  · cases hnone.symm.trans hreg
  · exact hd (Option.some.inj (hreg.symm.trans hsome))

/-- **An action on one channel keeps the invariant** if it leaves a consistent slot. -/
theorem Inv.put (h : s.Inv) (hfree : s.Free c) {k : Channel} {x : Option χ} {y : Option (ℕ × χ)}
    {calls : List Ctl} (hk : k.fd = (s.channel c).fd) (hslot : Slot c k x y) :
    (s.put c k x y calls).Inv := by
  have hother (d : χ) (hd : d ≠ c) : (s.put c k x y calls).channel d = s.channel d :=
    Function.update_of_ne hd _ _
  have hself : (s.put c k x y calls).channel c = k := Function.update_self _ _ _
  refine ⟨fun d hd => ?_, fun fd d hd => ?_, fun fd m d hd => ?_⟩
  · by_cases hdc : d = c
    · subst hdc
      rw [hself, hk]
      simp only [EpollPoller.put, Function.update_self]
      exact hslot
    · rw [hother d hdc] at hd ⊢
      have hne := fd_ne hfree hdc (h.registered_iff.mpr hd)
      simp only [EpollPoller.put, Function.update_of_ne hne]
      exact h.slot d hd
  · by_cases hfd : fd = (s.channel c).fd
    · subst hfd
      simp only [EpollPoller.put, Function.update_self] at hd
      obtain ⟨rfl, hindex⟩ := hslot.eq_some hd
      rw [hself]
      exact ⟨hk, hindex⟩
    · simp only [EpollPoller.put, Function.update_of_ne hfd] at hd
      have hchannel := h.channels fd d hd
      have hdc : d ≠ c := by
        rintro rfl
        exact hfd hchannel.1.symm
      rw [hother d hdc]
      exact hchannel
  · by_cases hfd : fd = (s.channel c).fd
    · subst hfd
      simp only [EpollPoller.put, Function.update_self] at hd ⊢
      subst hd
      cases hslot
      rfl
    · simp only [EpollPoller.put, Function.update_of_ne hfd] at hd ⊢
      exact h.kernel fd m d hd

omit [DecidableEq χ] in
/-- The fd of an unregistered channel that is free is in neither. -/
theorem Inv.kernel_none {fd : ℕ} (h : s.Inv) (hnone : s.channels fd = none) :
    s.kernel fd = none := by
  cases hk : s.kernel fd with
  | none => rfl
  | some e => cases hnone.symm.trans (h.kernel fd e.1 e.2 hk)

/-- **What `updateChannel` does** after a change of `events_`. -/
theorem Inv.interest (h : s.Inv) (hfree : s.Free c) (i : Interest) :
    ∃ k y operation, s.interest c i =
      some (s.put c k (some c) y [⟨operation, (s.channel c).fd, true⟩]) ∧
        k.fd = (s.channel c).fd ∧ Slot c k (some c) y := by
  cases hindex : (s.channel c).index with
  | kNew =>
    -- the channel is registered now
    have hnone : s.channels (s.channel c).fd = none := by
      refine hfree.resolve_right fun hsome => ?_
      exact (h.channels _ c hsome).2 hindex
    have hkernel := h.kernel_none hnone
    refine ⟨⟨(s.channel c).fd, i.apply (s.channel c).events, .kAdded⟩, _, .add, ?_, rfl, .added rfl⟩
    simp [EpollPoller.interest, updateChannel, setEvents, setIndex, ctl, EpollPoller.put, legal,
      hindex, hnone, hkernel]
  | kDeleted =>
    obtain ⟨hsome, hkernel, -⟩ := h.of_deleted hindex
    refine ⟨⟨(s.channel c).fd, i.apply (s.channel c).events, .kAdded⟩, _, .add, ?_, rfl, .added rfl⟩
    simp [EpollPoller.interest, updateChannel, setEvents, setIndex, ctl, EpollPoller.put, legal,
      hindex, hsome, hkernel]
  | kAdded =>
    obtain ⟨hsome, hkernel⟩ := h.of_added hindex
    by_cases hnone : i.apply (s.channel c).events = Channel.kNoneEvent
    · -- without events it leaves the kernel and stays in `channels_`
      refine ⟨⟨(s.channel c).fd, i.apply (s.channel c).events, .kDeleted⟩, _, .del, ?_, rfl,
        .deleted rfl hnone⟩
      simp [EpollPoller.interest, updateChannel, setEvents, setIndex, ctl, EpollPoller.put, legal,
        Channel.isNoneEvent, hindex, hsome, hkernel, hnone]
    · refine ⟨⟨(s.channel c).fd, i.apply (s.channel c).events, .kAdded⟩, _, .mod, ?_, rfl,
        .added rfl⟩
      simp [EpollPoller.interest, updateChannel, setEvents, ctl, EpollPoller.put, legal,
        Channel.isNoneEvent, hindex, hsome, hkernel, hnone]

/-- **What `removeChannel` does.** -/
theorem Inv.removeChannel (h : s.Inv) (hreg : s.Registered c)
    (hnone : (s.channel c).isNoneEvent = true) :
    ∃ k calls, s.removeChannel c = some (s.put c k none none calls) ∧
      k.fd = (s.channel c).fd ∧ Slot c k none none ∧ ∀ call ∈ calls, call.legal = true := by
  have hsome : s.channels (s.channel c).fd = some c := hreg
  cases hindex : (s.channel c).index with
  | kNew => exact absurd hindex (h.registered_iff.mp hreg)
  | kDeleted =>
    obtain ⟨-, hkernel, -⟩ := h.of_deleted hindex
    refine ⟨⟨(s.channel c).fd, (s.channel c).events, .kNew⟩, [], ?_, rfl, .new rfl, nofun⟩
    simp [EpollPoller.removeChannel, setIndex, EpollPoller.put, hindex, hsome, hkernel, hnone]
  | kAdded =>
    -- it was registered without events
    obtain ⟨-, hkernel⟩ := h.of_added hindex
    refine ⟨⟨(s.channel c).fd, (s.channel c).events, .kNew⟩, [⟨.del, (s.channel c).fd, true⟩], ?_,
      rfl, .new rfl, by simp⟩
    simp [EpollPoller.removeChannel, setIndex, ctl, legal, EpollPoller.put, hindex, hsome, hkernel,
      hnone]

/-- Where `updateChannel` fails no assertion, the fd is free. -/
theorem Inv.free_of_interest (h : s.Inv) {i : Interest} (hs : s.interest c i = some s') :
    s.Free c := by
  by_cases hreg : s.Registered c
  · exact .inr hreg
  · have hindex : (s.channel c).index = .kNew := by
      by_contra hne
      exact hreg (h.registered_iff.mpr hne)
    refine .inl (by_contra fun hsome => ?_)
    simp [EpollPoller.interest, updateChannel, setEvents, hindex, hsome] at hs

/-- The other channels stay registered, and so does this one if it is in `channels_` now. -/
theorem registered_put (hfree : s.Free c) {k : Channel} {x : Option χ} {y : Option (ℕ × χ)}
    {calls : List Ctl} (hk : k.fd = (s.channel c).fd) (hd : s.Registered d)
    (hx : d = c → x = some c) : (s.put c k x y calls).Registered d := by
  by_cases hdc : d = c
  · subst hdc
    simp only [Registered, EpollPoller.put, Function.update_self, hk]
    exact hx rfl
  · have hne := fd_ne hfree hdc hd
    simp only [Registered, EpollPoller.put, Function.update_of_ne hdc, Function.update_of_ne hne]
    exact hd

/-- A change of interest that fails no assertion keeps the invariant and what is registered. -/
theorem Inv.of_interest (h : s.Inv) {i : Interest} (hs : s.interest c i = some s') :
    s'.Inv ∧ ∀ d, s.Registered d → s'.Registered d := by
  have hfree := h.free_of_interest hs
  obtain ⟨k, y, operation, hs', hk, hslot⟩ := h.interest hfree i
  cases hs'.symm.trans hs
  exact ⟨h.put hfree hk hslot, fun d hd => registered_put hfree hk hd fun _ => rfl⟩

/-- A removal that fails no assertion keeps the invariant and the other registrations. -/
theorem Inv.of_removeChannel (h : s.Inv) (hs : s.removeChannel c = some s') :
    s'.Inv ∧ ∀ d, d ≠ c → s.Registered d → s'.Registered d := by
  have hassert : s.Registered c ∧ (s.channel c).isNoneEvent = true := by
    rw [EpollPoller.removeChannel, Option.ite_none_right_eq_some] at hs
    exact hs.1
  obtain ⟨k, calls, hs', hk, hslot, -⟩ := h.removeChannel hassert.1 hassert.2
  cases hs'.symm.trans hs
  exact ⟨h.put (.inr hassert.1) hk hslot,
    fun d hdc hd => registered_put (.inr hassert.1) hk hd fun heq => absurd heq hdc⟩

omit [DecidableEq χ] in
theorem inv_new {fd : χ → ℕ} : (new fd).Inv :=
  ⟨fun _ h => absurd rfl h, nofun, nofun⟩

/-- **An allowed action** is possible, and keeps the invariant. -/
theorem Inv.step (h : s.Inv) (hlegal : ∀ call ∈ s.calls, call.legal = true) {a : Action χ}
    (ha : s.Allowed a) :
    ∃ s', s.step a = some s' ∧ s'.Inv ∧ ∀ call ∈ s'.calls, call.legal = true := by
  cases a with
  | interest c i =>
    have hfree : s.Free c := by
      cases hx : s.channels (s.channel c).fd with
      | none => exact .inl hx
      | some d =>
        -- the fd is registered, and for no other channel
        have hd := (h.channels _ d hx).1
        have hreg : s.Registered d := by rw [Registered, hd, hx]
        by_cases hdc : d = c
        · exact .inr (hdc ▸ hx)
        · exact absurd hd (ha d hdc hreg)
    obtain ⟨k, y, operation, hs, hk, hslot⟩ := h.interest hfree i
    exact ⟨_, hs, h.put hfree hk hslot,
      List.forall_mem_append.mpr ⟨hlegal, List.forall_mem_singleton.mpr rfl⟩⟩
  | remove c =>
    obtain ⟨k, calls, hs, hk, hslot, hcalls⟩ := h.removeChannel ha.1 ha.2
    exact ⟨_, hs, h.put (.inr ha.1) hk hslot, List.forall_mem_append.mpr ⟨hlegal, hcalls⟩⟩

omit [DecidableEq χ] in
/-- Where the invariant holds, the copies agree. -/
theorem Inv.agrees (h : s.Inv) (hlegal : ∀ call ∈ s.calls, call.legal = true) :
    s.Agrees fun c => s.InNeither c ∨ s.TakenOver c := by
  refine ⟨hlegal, fun c => ⟨fun hadded => (h.of_added hadded).2, fun hkernel => ?_⟩,
    fun c hdeleted => h.of_deleted hdeleted, fun c => ⟨fun hnew => ?_, fun hcase => ?_⟩⟩
  · have hreg : s.Registered c := h.kernel _ _ c hkernel
    cases hindex : (s.channel c).index with
    | kNew => exact absurd hindex (h.registered_iff.mp hreg)
    | kDeleted => cases (h.of_deleted hindex).2.1.symm.trans hkernel
    | kAdded => rfl
  · cases hx : s.channels (s.channel c).fd with
    | none => exact .inl ⟨hx, h.kernel_none hx⟩
    | some d =>
      obtain ⟨hfd, hindex⟩ := h.channels _ d hx
      refine .inr ⟨d, ?_, h.registered_iff.mpr hindex, hfd⟩
      rintro rfl
      exact hindex hnew
  · by_contra hindex
    have hsome : s.channels (s.channel c).fd = some c := h.registered_iff.mpr hindex
    rcases hcase with ⟨hnone, -⟩ | ⟨d, hdc, hd, hfd⟩
    · cases hnone.symm.trans hsome
    · rw [Registered, hfd] at hd
      exact hdc (Option.some.inj (hd.symm.trans hsome))

/-- **Poller, channels and kernel agree.** For every set of channels and every sequence of changes
of interest and removals in which the registered channels have distinct fds and only registered
channels without events are removed: no assertion fails, every `epoll_ctl` is legal, a channel is
`kAdded` exactly if the kernel has its fd, for it and with its mask, a `kDeleted` one is in
`channels_` only, and a `kNew` one is in neither, or another channel has its fd. -/
theorem agrees_of_guarded {fd : χ → ℕ} {as : List (Action χ)}
    (h : Runs.Guarded step Allowed (new fd) as) :
    ∃ s, Runs.exec step (new fd) as = some s ∧
      s.Agrees fun c => s.InNeither c ∨ s.TakenOver c := by
  have hstep : ∀ (s : EpollPoller χ) (a : Action χ),
      (s.Inv ∧ ∀ call ∈ s.calls, call.legal = true) → s.Allowed a →
        ∃ s', s.step a = some s' ∧ s'.Inv ∧ ∀ call ∈ s'.calls, call.legal = true :=
    fun _ _ h ha => h.1.step h.2 ha
  obtain ⟨s, hs, hinv, hlegal⟩ := Runs.exec_safe ⟨inv_new, nofun⟩ hstep h
  exact ⟨s, hs, hinv.agrees hlegal⟩

/-- A channel is registered and removed, and another one is registered with its fd. -/
def reused : List (Action Bool) :=
  [.interest false .enableReading, .interest false .disableAll, .remove false,
    .interest true .enableReading, .interest true .enableWriting]

/-- The theorem at work. -/
theorem agrees_of_guarded_reused :
    ∃ s, Runs.exec step (new fun _ : Bool => 5) reused = some s ∧
      s.Agrees fun c => s.InNeither c ∨ s.TakenOver c :=
  agrees_of_guarded (by decide)

/-- **A removed channel whose fd is used again** is `kNew`, and its fd is in `channels_`. -/
theorem not_agrees_inNeither : ¬ ∀ (fd : Bool → ℕ) (as : List (Action Bool)),
    Runs.Guarded step Allowed (new fd) as →
      ∃ s, Runs.exec step (new fd) as = some s ∧ s.Agrees s.InNeither := by
  intro hall
  obtain ⟨s, hs, hagrees⟩ := hall (fun _ => 5) reused (by decide)
  have hrun : (Runs.exec step (new fun _ : Bool => 5) reused).map (fun s =>
      ((s.channel false).index, s.channels (s.channel false).fd)) = some (.kNew, some true) := by
    decide
  rw [hs, Option.map_some, Option.some_inj, Prod.mk.injEq] at hrun
  have hneither := ((hagrees.new false).mp hrun.1).1
  cases hneither.symm.trans hrun.2

end EpollPoller

end Net

end Muduo
