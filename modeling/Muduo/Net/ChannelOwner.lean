import Muduo.Net.EpollPoller

/-! # The owners of channels

What becomes of the `Channel` in a `TcpConnection`, an `Acceptor`, a `TimerQueue` and an
`EventLoop`, from `muduo/net/Channel.cc` and the files of the owners: the operations of each that
call `update` or `remove`, and its destructor up to the assertions of `~Channel`. All owners live in
one loop thread, and an operation has returned before the next one begins, so `eventHandling_` is
false between them. A failed assertion ends the run. The kernel does not give a descriptor that is
open to a new owner.

`TimerQueue` and `EventLoop` register their channel in the constructor, but only `~EventLoop`
removes it. `Acceptor` registers it in `listen()` and never removes it, and a `TcpConnection`
removes it in `connectDestroyed`.

**`OwnerLoop.deregistered_iff_mayDestroy`**: in which runs the assertions of `~Channel` hold, for
each of the owners. -/

namespace Muduo

namespace Net

open Function (update)

/-- `isWriting()`. -/
def Channel.isWriting (ch : Channel) : Bool := ch.events &&& kWriteEvent != 0

/-- Whose member a channel is. -/
inductive OwnerKind
  | tcpConnection
  | acceptor
  | timerQueue
  | eventLoop
deriving DecidableEq, Repr

/-- The poller of a loop, its channels and their owners. -/
structure OwnerLoop (χ : Type*) where
  /-- The owner of a channel. -/
  kind : χ → OwnerKind
  poller : EpollPoller χ
  /-- `addedToLoop_`. -/
  addedToLoop : χ → Bool
  /-- `state_`, if the owner is a `TcpConnection`. -/
  state : χ → State
  /-- The channels whose owners have been constructed. -/
  born : List χ
  /-- Those whose owners have not been destructed. -/
  alive : List χ

namespace OwnerLoop

variable {χ : Type*}

/-- Before anything is constructed. -/
def start (kind : χ → OwnerKind) (fd : χ → ℕ) : OwnerLoop χ where
  kind := kind
  poller := .new fd
  addedToLoop _ := false
  state _ := .kConnecting
  born := []
  alive := []

/-- An operation of an owner. Those that call neither `update` nor `remove` are left out. -/
inductive Action (χ : Type*)
  | construct (c : χ)
  /-- `Acceptor::listen`. -/
  | listen (c : χ)
  /-- `TcpConnection::connectEstablished`. -/
  | connectEstablished (c : χ)
  | handleClose (c : χ)
  /-- `sendInLoop`; what `write` leaves goes into `outputBuffer_`, if it leaves something. -/
  | sendInLoop (c : χ) (leaves : Bool)
  /-- `sendFileInLoop`; `sendfile` leaves something of the file, or not. -/
  | sendFileInLoop (c : χ) (leaves : Bool)
  /-- `handleWrite`, which sends the rest, or not. -/
  | handleWrite (c : χ) (completes : Bool)
  | shutdown (c : χ)
  | connectDestroyed (c : χ)
  /-- The destructor of the owner. -/
  | destroy (c : χ)
deriving DecidableEq, Repr

variable [DecidableEq χ]

/-- `events_=...; update();` -/
def interest (s : OwnerLoop χ) (c : χ) (i : Interest) : Option (OwnerLoop χ) :=
  (s.poller.interest c i).map fun p => { s with
    addedToLoop := update s.addedToLoop c true
    poller := p }

/-- `Channel::remove`. -/
def remove (s : OwnerLoop χ) (c : χ) : Option (OwnerLoop χ) :=
  (s.poller.removeChannel c).map fun p => { s with
    addedToLoop := update s.addedToLoop c false
    poller := p }

/-- `state_=v`. -/
def setState (s : OwnerLoop χ) (c : χ) (v : State) : OwnerLoop χ :=
  { s with state := update s.state c v }

/-- `sockChannel_->isWriting()`. -/
def isWriting (s : OwnerLoop χ) (c : χ) : Bool := (s.poller.channel c).isWriting

/-- The constructor, behind the members. -/
def constructor (s : OwnerLoop χ) (c : χ) : Option (OwnerLoop χ) :=
  match s.kind c with
  | .tcpConnection => some s
  | .acceptor => some s
  | .timerQueue => s.interest c .enableReading
  | .eventLoop => s.interest c .enableReading

/-- The body of the destructor, before `~Channel`. `~TcpConnection` asserts its state. -/
def destructor (s : OwnerLoop χ) (c : χ) : Option (OwnerLoop χ) :=
  match s.kind c with
  | .tcpConnection => if s.state c = .kDisConnected then some s else none
  | .acceptor => some s
  | .timerQueue => some s
  | .eventLoop => (s.interest c .disableAll).bind fun s => s.remove c

/-- `connectDestroyed`. -/
def connectDestroyed (s : OwnerLoop χ) (c : χ) : Option (OwnerLoop χ) :=
  (if s.state c = .kConnected then (s.setState c .kDisConnected).interest c .disableAll
    else some s).bind fun s => s.remove c

/-- What `~Channel` asserts: `addedToLoop_` is false, and the poller does not have the fd. -/
def Deregistered (s : OwnerLoop χ) (c : χ) : Prop :=
  s.addedToLoop c = false ∧ s.poller.channels (s.poller.channel c).fd = none

instance (s : OwnerLoop χ) (c : χ) : Decidable (s.Deregistered c) :=
  inferInstanceAs (Decidable (s.addedToLoop c = false ∧ _ = none))

/-- The owner is alive, and of this kind. -/
def Is (s : OwnerLoop χ) (c : χ) (k : OwnerKind) : Prop := c ∈ s.alive ∧ s.kind c = k

instance (s : OwnerLoop χ) (c : χ) (k : OwnerKind) : Decidable (s.Is c k) :=
  inferInstanceAs (Decidable (c ∈ s.alive ∧ s.kind c = k))

/-- One operation. -/
def step (s : OwnerLoop χ) : Action χ → Option (OwnerLoop χ)
  | .construct c =>
    if c ∉ s.born ∧ ∀ d ∈ s.alive, (s.poller.channel d).fd ≠ (s.poller.channel c).fd then
      { s with born := c :: s.born, alive := c :: s.alive }.constructor c
    else none
  | .listen c => if s.Is c .acceptor then s.interest c .enableReading else none
  | .connectEstablished c =>
    if s.Is c .tcpConnection then (s.setState c .kConnected).interest c .enableReading else none
  | .handleClose c =>
    if s.Is c .tcpConnection then (s.setState c .kDisConnected).interest c .disableAll else none
  | .sendInLoop c leaves =>
    if s.Is c .tcpConnection then
      if s.state c = .kConnected ∧ leaves = true ∧ s.isWriting c = false then
        s.interest c .enableWriting
      else some s
    else none
  | .sendFileInLoop c leaves =>
    -- it does not look at `state_`
    if s.Is c .tcpConnection then
      if leaves = true ∧ s.isWriting c = false then s.interest c .enableWriting else some s
    else none
  | .handleWrite c completes =>
    if s.Is c .tcpConnection ∧ s.isWriting c = true then
      if completes = true then s.interest c .disableWriting else some s
    else none
  | .shutdown c =>
    if s.Is c .tcpConnection then
      some (if s.state c = .kConnected then s.setState c .kDisConnecting else s)
    else none
  | .connectDestroyed c => if s.Is c .tcpConnection then s.connectDestroyed c else none
  | .destroy c =>
    if c ∈ s.alive then
      (s.destructor c).bind fun s =>
        if s.Deregistered c then some { s with alive := s.alive.erase c } else none
    else none

/-! ## The condition -/

/-- The operation calls `update` on the channel `c`, and not `remove` after it. -/
def Updates (c : χ) (s : OwnerLoop χ) : Action χ → Prop
  | .construct d => d = c ∧ (s.kind c = .timerQueue ∨ s.kind c = .eventLoop)
  | .listen d => d = c
  | .connectEstablished d => d = c
  | .handleClose d => d = c
  | .sendInLoop d leaves =>
    d = c ∧ s.state c = .kConnected ∧ leaves = true ∧ s.isWriting c = false
  | .sendFileInLoop d leaves => d = c ∧ leaves = true ∧ s.isWriting c = false
  | .handleWrite d completes => d = c ∧ completes = true
  | _ => False

/-- `connectDestroyed` is called, and no operation after it calls `update`. -/
def Settled (s : OwnerLoop χ) (c : χ) (as : List (Action χ)) : Prop :=
  Runs.Since step (fun s a => ¬Updates c s a) (.connectDestroyed c) s as

/-- When the owner of `c` may be destructed after the operations `as`. -/
def MayDestroy (s : OwnerLoop χ) (c : χ) (as : List (Action χ)) : Prop :=
  match s.kind c with
  | .tcpConnection => s.Settled c as
  | .acceptor => .listen c ∉ as
  | .timerQueue => False
  | .eventLoop => True

variable {s s' : OwnerLoop χ} {c d : χ} {i : Interest}

/-! ## The poller -/

/-- What an action on the channel `c` leaves to the others. -/
theorem channel_put {p : EpollPoller χ} {k : Channel} (x : Option χ) (y : Option (ℕ × χ))
    (calls : List Ctl) (hk : k.fd = (p.channel c).fd) :
    (∀ d, ((p.put c k x y calls).channel d).fd = (p.channel d).fd) ∧
      ∀ d ≠ c, (p.put c k x y calls).channel d = p.channel d := by
  refine ⟨fun d => ?_, fun d hd => Function.update_of_ne hd _ _⟩
  by_cases hd : d = c
  · subst hd
    simp [EpollPoller.put, hk]
  · simp [EpollPoller.put, hd]

/-- The poller after an action that concerns the channel `c`: `registered` says whether it knows
`c` now. -/
structure PollerStep (c : χ) (registered : Bool) (p p' : EpollPoller χ) : Prop where
  inv : p'.Inv
  fd : ∀ d, (p'.channel d).fd = (p.channel d).fd
  self : p'.Registered c ↔ registered = true
  other : ∀ d ≠ c, p'.Registered d ↔ p.Registered d

theorem pollerStep_interest {p p' : EpollPoller χ} (h : p.Inv) (hs : p.interest c i = some p') :
    PollerStep c true p p' := by
  have hfree := h.free_of_interest hs
  obtain ⟨k, y, operation, hput, hk, hslot⟩ := h.interest hfree i
  cases hput.symm.trans hs
  obtain ⟨hfd, hother⟩ := channel_put (some c) y [⟨operation, _, true⟩] hk
  have hinv : (p.put c k (some c) y [⟨operation, (p.channel c).fd, true⟩]).Inv :=
    h.put hfree hk hslot
  refine ⟨hinv, hfd, iff_of_true ?_ rfl, fun d hd => ?_⟩
  · rw [EpollPoller.Registered, hfd]
    exact Function.update_self _ _ _
  · rw [hinv.registered_iff, h.registered_iff, hother d hd]

theorem pollerStep_remove {p p' : EpollPoller χ} (h : p.Inv) (hs : p.removeChannel c = some p') :
    PollerStep c false p p' := by
  have hassert : p.Registered c ∧ (p.channel c).isNoneEvent = true := by
    rw [EpollPoller.removeChannel, Option.ite_none_right_eq_some] at hs
    exact hs.1
  obtain ⟨k, calls, hput, hk, hslot, -⟩ := h.removeChannel hassert.1 hassert.2
  cases hput.symm.trans hs
  obtain ⟨hfd, hother⟩ := channel_put none none calls hk
  have hinv : (p.put c k none none calls).Inv := h.put (.inr hassert.1) hk hslot
  refine ⟨hinv, hfd, iff_of_false ?_ Bool.false_ne_true, fun d hd => ?_⟩
  · intro hreg
    rw [EpollPoller.Registered, hfd] at hreg
    have hnone : (p.put c k none none calls).channels (p.channel c).fd = none :=
      Function.update_self _ _ _
    cases hnone.symm.trans hreg
  · rw [hinv.registered_iff, h.registered_iff, hother d hd]

/-! ## The invariant -/

/-- `addedToLoop_` says what the poller knows, which are channels of living owners; these have
distinct descriptors. -/
structure Inv (s : OwnerLoop χ) : Prop where
  poller : s.poller.Inv
  added : ∀ c, s.addedToLoop c = true ↔ s.poller.Registered c
  alive : ∀ c, s.poller.Registered c → c ∈ s.alive
  distinct : ∀ c ∈ s.alive, ∀ d ∈ s.alive, d ≠ c →
    (s.poller.channel d).fd ≠ (s.poller.channel c).fd

/-- **What the second assertion adds**: nothing, where the invariant holds. -/
theorem Inv.deregistered_iff (h : s.Inv) (hc : c ∈ s.alive) :
    s.Deregistered c ↔ s.addedToLoop c = false := by
  refine ⟨fun hd => hd.1, fun hadded => ⟨hadded, ?_⟩⟩
  cases hx : s.poller.channels (s.poller.channel c).fd with
  | none => rfl
  | some d =>
    obtain ⟨hfd, hindex⟩ := h.poller.channels _ d hx
    have hreg : s.poller.Registered d := h.poller.registered_iff.mpr hindex
    by_cases hdc : d = c
    · subst hdc
      rw [(h.added d).mpr hreg] at hadded
      cases hadded
    · exact absurd hfd (h.distinct c hc d (h.alive d hreg) hdc)

omit [DecidableEq χ] in
theorem inv_start {kind : χ → OwnerKind} {fd : χ → ℕ} : (start kind fd).Inv :=
  ⟨EpollPoller.inv_new, fun _ => iff_of_false nofun nofun, nofun, nofun⟩

/-- A change of the poller and of `addedToLoop_` for a living owner. -/
theorem Inv.pollerStep (h : s.Inv) (hc : c ∈ s.alive) {registered : Bool} {p : EpollPoller χ}
    (hp : PollerStep c registered s.poller p) : Inv { s with
      addedToLoop := update s.addedToLoop c registered
      poller := p } := by
  refine ⟨hp.inv, fun d => ?_, fun d hd => ?_, fun d hd e he hne => ?_⟩
  · by_cases hdc : d = c
    · subst hdc
      simpa using hp.self.symm
    · simpa [hdc, hp.other d hdc] using h.added d
  · by_cases hdc : d = c
    · exact hdc ▸ hc
    · exact h.alive d ((hp.other d hdc).mp hd)
  · rw [hp.fd, hp.fd]
    exact h.distinct d hd e he hne

theorem Inv.interest (h : s.Inv) (hc : c ∈ s.alive) (hs : s.interest c i = some s') : s'.Inv := by
  obtain ⟨p, hp, rfl⟩ := Option.map_eq_some_iff.mp hs
  exact h.pollerStep hc (pollerStep_interest h.poller hp)

theorem Inv.remove (h : s.Inv) (hc : c ∈ s.alive) (hs : s.remove c = some s') : s'.Inv := by
  obtain ⟨p, hp, rfl⟩ := Option.map_eq_some_iff.mp hs
  exact h.pollerStep hc (pollerStep_remove h.poller hp)

theorem Inv.setState (h : s.Inv) {v : State} : (s.setState c v).Inv :=
  ⟨h.poller, h.added, h.alive, h.distinct⟩

theorem Inv.connectDestroyed (h : s.Inv) (hc : c ∈ s.alive)
    (hs : s.connectDestroyed c = some s') : s'.Inv := by
  obtain ⟨t, ht, hs⟩ := Option.bind_eq_some_iff.mp hs
  split_ifs at ht with hstate
  · obtain ⟨p, hp, rfl⟩ := Option.map_eq_some_iff.mp ht
    have ht' := (h.setState (c := c) (v := .kDisConnected)).interest hc ht
    exact ht'.remove hc hs
  · cases ht
    exact h.remove hc hs

/-- The destructor leaves the owner alive until `~Channel` has run. -/
theorem Inv.destructor (h : s.Inv) (hc : c ∈ s.alive) (hs : s.destructor c = some s') :
    s'.Inv ∧ s'.alive = s.alive ∧ s'.kind = s.kind := by
  rw [OwnerLoop.destructor] at hs
  split at hs
  · obtain ⟨-, hs⟩ := Option.ite_none_right_eq_some.mp hs
    cases hs
    exact ⟨h, rfl, rfl⟩
  · cases hs
    exact ⟨h, rfl, rfl⟩
  · cases hs
    exact ⟨h, rfl, rfl⟩
  · obtain ⟨t, ht, hs⟩ := Option.bind_eq_some_iff.mp hs
    obtain ⟨p, hp, rfl⟩ := Option.map_eq_some_iff.mp ht
    have ht' := (h.interest hc ht).remove hc hs
    obtain ⟨q, hq, rfl⟩ := Option.map_eq_some_iff.mp hs
    exact ⟨ht', rfl, rfl⟩

omit [DecidableEq χ] in
/-- A new owner that has not registered its channel yet. -/
theorem Inv.construct (h : s.Inv)
    (hnew : ∀ d ∈ s.alive, (s.poller.channel d).fd ≠ (s.poller.channel c).fd) :
    Inv { s with born := c :: s.born, alive := c :: s.alive } := by
  refine ⟨h.poller, h.added, fun d hd => List.mem_cons_of_mem c (h.alive d hd),
    fun d hd e he hne => ?_⟩
  rcases List.mem_cons.mp hd with rfl | hd' <;> rcases List.mem_cons.mp he with rfl | he'
  · exact absurd rfl hne
  · exact hnew e he'
  · exact (hnew d hd').symm
  · exact h.distinct d hd' e he' hne

theorem Inv.constructor (h : s.Inv) (hc : c ∈ s.alive) (hs : s.constructor c = some s') :
    s'.Inv := by
  rw [OwnerLoop.constructor] at hs
  split at hs
  · exact Option.some.inj hs ▸ h
  · exact Option.some.inj hs ▸ h
  · exact h.interest hc hs
  · exact h.interest hc hs

/-- **Every operation** keeps the invariant. -/
theorem Inv.step (h : s.Inv) {a : Action χ} (hs : s.step a = some s') : s'.Inv := by
  cases a with
  | construct c =>
    obtain ⟨⟨-, hnew⟩, hs⟩ := Option.ite_none_right_eq_some.mp hs
    exact (h.construct hnew).constructor (List.mem_cons_self ..) hs
  | listen c =>
    obtain ⟨hc, hs⟩ := Option.ite_none_right_eq_some.mp hs
    exact h.interest hc.1 hs
  | connectEstablished c | handleClose c =>
    obtain ⟨hc, hs⟩ := Option.ite_none_right_eq_some.mp hs
    exact h.setState.interest hc.1 hs
  | sendInLoop c leaves | sendFileInLoop c leaves =>
    obtain ⟨hc, hs⟩ := Option.ite_none_right_eq_some.mp hs
    split_ifs at hs
    · exact h.interest hc.1 hs
    · exact Option.some.inj hs ▸ h
  | handleWrite c completes =>
    obtain ⟨hc, hs⟩ := Option.ite_none_right_eq_some.mp hs
    split_ifs at hs
    · exact h.interest hc.1.1 hs
    · exact Option.some.inj hs ▸ h
  | shutdown c =>
    obtain ⟨-, hs⟩ := Option.ite_none_right_eq_some.mp hs
    cases hs
    split_ifs
    · exact h.setState
    · exact h
  | connectDestroyed c =>
    obtain ⟨hc, hs⟩ := Option.ite_none_right_eq_some.mp hs
    exact h.connectDestroyed hc.1 hs
  | destroy c =>
    obtain ⟨hc, hs⟩ := Option.ite_none_right_eq_some.mp hs
    obtain ⟨t, ht, hs⟩ := Option.bind_eq_some_iff.mp hs
    obtain ⟨hd, hs⟩ := Option.ite_none_right_eq_some.mp hs
    cases hs
    obtain ⟨ht', halive, -⟩ := h.destructor hc ht
    refine ⟨ht'.poller, ht'.added, fun d hreg => ?_, fun d hd e he => ?_⟩
    · -- the channel of the owner itself is not registered any more
      refine (List.mem_erase_of_ne ?_).mpr (ht'.alive d hreg)
      rintro rfl
      cases ((ht'.added d).mpr hreg).symm.trans hd.1
    · exact ht'.distinct d (List.mem_of_mem_erase hd) e (List.mem_of_mem_erase he)

/-! ## Who sets `addedToLoop_` -/

/-- What an operation does to `addedToLoop_` of the channel `c`. -/
structure Adds (c : χ) (s : OwnerLoop χ) (a : Action χ) (s' : OwnerLoop χ) : Prop where
  kind : s'.kind = s.kind
  updates : Updates c s a → s'.addedToLoop c = true
  removes : a = .connectDestroyed c → s'.addedToLoop c = false
  keeps : a ≠ .connectDestroyed c → ¬Updates c s a → s'.addedToLoop c = s.addedToLoop c

/-- An operation that calls `update` on the channel `d`. -/
theorem adds_interest {a : Action χ} {t : OwnerLoop χ} (hs : t.interest d i = some s')
    (ht : t.addedToLoop = s.addedToLoop) (hk : t.kind = s.kind)
    (ha : ∀ c, a ≠ .connectDestroyed c) (hupdates : Updates c s a → d = c)
    (hother : d = c → Updates c s a) : Adds c s a s' := by
  obtain ⟨p, -, rfl⟩ := Option.map_eq_some_iff.mp hs
  refine ⟨hk, fun hu => ?_, fun heq => absurd heq (ha c), fun _ hu => ?_⟩
  · rw [hupdates hu]
    exact Function.update_self _ _ _
  · have hne : c ≠ d := fun heq => hu (hother heq.symm)
    rw [← ht]
    exact Function.update_of_ne hne _ _

omit [DecidableEq χ] in
/-- An operation that calls neither. -/
theorem adds_same [DecidableEq χ] {a : Action χ} (hs : s'.addedToLoop = s.addedToLoop)
    (hk : s'.kind = s.kind) (ha : ∀ c, a ≠ .connectDestroyed c) (hu : ¬Updates c s a) :
    Adds c s a s' :=
  ⟨hk, fun h => absurd h hu, fun heq => absurd heq (ha c), fun _ _ => by rw [hs]⟩

/-- `remove` after any change of the state. -/
theorem addedToLoop_connectDestroyed (hs : s.connectDestroyed d = some s') :
    s'.kind = s.kind ∧ s'.addedToLoop = update s.addedToLoop d false := by
  obtain ⟨t, ht, hs⟩ := Option.bind_eq_some_iff.mp hs
  obtain ⟨q, -, rfl⟩ := Option.map_eq_some_iff.mp hs
  split_ifs at ht
  · obtain ⟨p, -, rfl⟩ := Option.map_eq_some_iff.mp ht
    exact ⟨rfl, Function.update_idem _ _ _⟩
  · cases ht
    exact ⟨rfl, rfl⟩

/-- A destructor that is not `~EventLoop` calls neither. -/
theorem addedToLoop_destructor (hs : s.destructor d = some s') :
    s'.kind = s.kind ∧ (s.kind d ≠ .eventLoop → s'.addedToLoop = s.addedToLoop) ∧
      ∀ e ≠ d, s'.addedToLoop e = s.addedToLoop e := by
  rw [OwnerLoop.destructor] at hs
  split at hs
  · obtain ⟨-, hs⟩ := Option.ite_none_right_eq_some.mp hs
    cases hs
    exact ⟨rfl, fun _ => rfl, fun _ _ => rfl⟩
  · cases hs
    exact ⟨rfl, fun _ => rfl, fun _ _ => rfl⟩
  · cases hs
    exact ⟨rfl, fun _ => rfl, fun _ _ => rfl⟩
  · next hk =>
    obtain ⟨t, ht, hs⟩ := Option.bind_eq_some_iff.mp hs
    obtain ⟨p, -, rfl⟩ := Option.map_eq_some_iff.mp ht
    obtain ⟨q, -, rfl⟩ := Option.map_eq_some_iff.mp hs
    refine ⟨rfl, fun hne => absurd hk hne, fun e he => ?_⟩
    simp [he]

/-- **What an operation does to `addedToLoop_`**, unless the owner is an `EventLoop`. -/
theorem adds_step {a : Action χ} (hk : s.kind c ≠ .eventLoop) (hs : s.step a = some s') :
    Adds c s a s' := by
  cases a with
  | construct d =>
    obtain ⟨-, hs⟩ := Option.ite_none_right_eq_some.mp hs
    rw [OwnerLoop.constructor] at hs
    split at hs
    · next hd =>
      cases hs
      refine adds_same rfl rfl nofun ?_
      rintro ⟨rfl, h | h⟩ <;> cases hd.symm.trans h
    · next hd =>
      cases hs
      refine adds_same rfl rfl nofun ?_
      rintro ⟨rfl, h | h⟩ <;> cases hd.symm.trans h
    · next hd =>
      exact adds_interest hs rfl rfl nofun And.left fun heq => ⟨heq, .inl (heq ▸ hd)⟩
    · next hd =>
      exact adds_interest hs rfl rfl nofun And.left fun heq => ⟨heq, .inr (heq ▸ hd)⟩
  | listen d | connectEstablished d | handleClose d =>
    obtain ⟨-, hs⟩ := Option.ite_none_right_eq_some.mp hs
    exact adds_interest hs rfl rfl nofun id id
  | sendInLoop d leaves | sendFileInLoop d leaves =>
    obtain ⟨-, hs⟩ := Option.ite_none_right_eq_some.mp hs
    split_ifs at hs with hcond
    · exact adds_interest hs rfl rfl nofun And.left fun heq => ⟨heq, heq ▸ hcond⟩
    · cases hs
      refine adds_same rfl rfl nofun ?_
      rintro ⟨rfl, h⟩
      exact hcond h
  | handleWrite d completes =>
    obtain ⟨-, hs⟩ := Option.ite_none_right_eq_some.mp hs
    split_ifs at hs with hcond
    · exact adds_interest hs rfl rfl nofun And.left fun heq => ⟨heq, hcond⟩
    · cases hs
      exact adds_same rfl rfl nofun fun hu => hcond hu.2
  | shutdown d =>
    obtain ⟨-, hs⟩ := Option.ite_none_right_eq_some.mp hs
    cases hs
    refine adds_same ?_ ?_ nofun id
    · split_ifs <;> rfl
    · split_ifs <;> rfl
  | connectDestroyed d =>
    obtain ⟨-, hs⟩ := Option.ite_none_right_eq_some.mp hs
    obtain ⟨hkind, hadded⟩ := addedToLoop_connectDestroyed hs
    refine ⟨hkind, False.elim, ?_, fun hne _ => ?_⟩
    · rintro ⟨⟩
      rw [hadded]
      exact Function.update_self _ _ _
    · rw [hadded]
      exact Function.update_of_ne (fun heq => hne (by rw [heq])) _ _
  | destroy d =>
    obtain ⟨-, hs⟩ := Option.ite_none_right_eq_some.mp hs
    obtain ⟨t, ht, hs⟩ := Option.bind_eq_some_iff.mp hs
    obtain ⟨-, hs⟩ := Option.ite_none_right_eq_some.mp hs
    cases hs
    obtain ⟨hkind, hself, hother⟩ := addedToLoop_destructor ht
    refine ⟨hkind, False.elim, nofun, fun _ _ => ?_⟩
    by_cases hcd : c = d
    · subst hcd
      exact congrFun (hself hk) c
    · exact hother c hcd

/-- What a call of `update` or `remove` leaves as it is. -/
structure Same (s s' : OwnerLoop χ) : Prop where
  kind : s'.kind = s.kind
  alive : s'.alive = s.alive
  state : s'.state = s.state

theorem same_interest (hs : s.interest d i = some s') : Same s s' := by
  obtain ⟨p, -, rfl⟩ := Option.map_eq_some_iff.mp hs
  exact ⟨rfl, rfl, rfl⟩

theorem same_remove (hs : s.remove d = some s') : Same s s' := by
  obtain ⟨p, -, rfl⟩ := Option.map_eq_some_iff.mp hs
  exact ⟨rfl, rfl, rfl⟩

theorem same_constructor (hs : s.constructor d = some s') : Same s s' := by
  rw [OwnerLoop.constructor] at hs
  split at hs
  · exact Option.some.inj hs ▸ ⟨rfl, rfl, rfl⟩
  · exact Option.some.inj hs ▸ ⟨rfl, rfl, rfl⟩
  · exact same_interest hs
  · exact same_interest hs

theorem same_destructor (hs : s.destructor d = some s') : Same s s' := by
  rw [OwnerLoop.destructor] at hs
  split at hs
  · obtain ⟨-, hs⟩ := Option.ite_none_right_eq_some.mp hs
    exact Option.some.inj hs ▸ ⟨rfl, rfl, rfl⟩
  · exact Option.some.inj hs ▸ ⟨rfl, rfl, rfl⟩
  · exact Option.some.inj hs ▸ ⟨rfl, rfl, rfl⟩
  · obtain ⟨t, ht, hs⟩ := Option.bind_eq_some_iff.mp hs
    have h := same_interest ht
    have h' := same_remove hs
    exact ⟨h'.kind.trans h.kind, h'.alive.trans h.alive, h'.state.trans h.state⟩

/-- What an operation leaves as it is: the owners that live, but the new one, and the state of a
`TcpConnection` that is neither established nor closed. -/
structure Leaves (c : χ) (s : OwnerLoop χ) (a : Action χ) (s' : OwnerLoop χ) : Prop where
  kind : s'.kind = s.kind
  alive : c ∈ s'.alive → c ∈ s.alive ∨ a = .construct c
  state : ¬Updates c s a → s.state c ≠ .kConnected → s'.state c = s.state c

omit [DecidableEq χ] in
theorem leaves_of_same [DecidableEq χ] {a : Action χ} (h : Same s s') : Leaves c s a s' :=
  ⟨h.kind, fun hc => .inl (h.alive ▸ hc), fun _ _ => congrFun h.state c⟩

/-- **What an operation leaves as it is.** -/
theorem leaves_step {a : Action χ} (hs : s.step a = some s') : Leaves c s a s' := by
  cases a with
  | construct d =>
    obtain ⟨-, hs⟩ := Option.ite_none_right_eq_some.mp hs
    have h := same_constructor hs
    refine ⟨h.kind, fun hc => ?_, fun _ _ => congrFun h.state c⟩
    rcases List.mem_cons.mp (h.alive ▸ hc) with rfl | hc
    · exact .inr rfl
    · exact .inl hc
  | listen d =>
    obtain ⟨-, hs⟩ := Option.ite_none_right_eq_some.mp hs
    exact leaves_of_same (same_interest hs)
  | connectEstablished d | handleClose d =>
    obtain ⟨-, hs⟩ := Option.ite_none_right_eq_some.mp hs
    have h := same_interest hs
    refine ⟨h.kind, fun hc => .inl (h.alive ▸ hc), fun hu _ => ?_⟩
    rw [h.state]
    exact Function.update_of_ne (fun heq => hu heq.symm) _ _
  | sendInLoop d leaves | sendFileInLoop d leaves | handleWrite d completes =>
    obtain ⟨-, hs⟩ := Option.ite_none_right_eq_some.mp hs
    split_ifs at hs
    · exact leaves_of_same (same_interest hs)
    · cases hs
      exact leaves_of_same ⟨rfl, rfl, rfl⟩
  | shutdown d =>
    obtain ⟨-, hs⟩ := Option.ite_none_right_eq_some.mp hs
    cases hs
    split_ifs with hstate
    · refine ⟨rfl, .inl, fun _ hc => Function.update_of_ne ?_ _ _⟩
      rintro rfl
      exact hc hstate
    · exact leaves_of_same ⟨rfl, rfl, rfl⟩
  | connectDestroyed d =>
    obtain ⟨-, hs⟩ := Option.ite_none_right_eq_some.mp hs
    obtain ⟨t, ht, hs⟩ := Option.bind_eq_some_iff.mp hs
    have h' := same_remove hs
    split_ifs at ht with hstate
    · have h := same_interest ht
      refine ⟨h'.kind.trans h.kind, fun hc => .inl ?_, fun _ hc => ?_⟩
      · rwa [h'.alive, h.alive] at hc
      · rw [h'.state, h.state]
        refine Function.update_of_ne ?_ _ _
        rintro rfl
        exact hc hstate
    · cases ht
      exact leaves_of_same h'
  | destroy d =>
    obtain ⟨-, hs⟩ := Option.ite_none_right_eq_some.mp hs
    obtain ⟨t, ht, hs⟩ := Option.bind_eq_some_iff.mp hs
    obtain ⟨-, hs⟩ := Option.ite_none_right_eq_some.mp hs
    cases hs
    have h := same_destructor ht
    exact ⟨h.kind, fun hc => .inl (h.alive ▸ List.mem_of_mem_erase hc),
      fun _ _ => congrFun h.state c⟩

theorem kind_step {a : Action χ} (hs : s.step a = some s') : s'.kind = s.kind :=
  funext fun c => congrFun (leaves_step (c := c) hs).kind c

/-! ## Runs -/

variable {kind : χ → OwnerKind} {fd : χ → ℕ} {as : List (Action χ)}

/-- **What `addedToLoop_` says of the run.** -/
theorem addedToLoop_iff (h : Runs.exec step (start kind fd) as = some s)
    (hk : kind c ≠ .eventLoop) : s.addedToLoop c = false ↔ (start kind fd).Settled c as ∨
      Runs.Guarded step (fun s a => ¬Updates c s a) (start kind fd) as := by
  have hadds {t t' : OwnerLoop χ} {a : Action χ} (ht : t.kind = kind) (hs : t.step a = some t') :
      Adds c t a t' := adds_step (ht ▸ hk) hs
  exact Runs.flag_iff_since (G := fun s a => ¬Updates c s a) (I := fun t => t.kind = kind)
    (b := Action.connectDestroyed c) (f := fun t => t.addedToLoop c) rfl
    (fun t a t' ht hs => (kind_step hs).trans ht)
    (fun t t' ht hs => (hadds ht hs).removes rfl)
    (fun t a t' ht _ hu hs => (hadds ht hs).updates (not_not.mp hu))
    (fun t a t' ht ha hu hs => (hadds ht hs).keeps ha hu) rfl h

theorem kind_of_exec (h : Runs.exec step (start kind fd) as = some s) : s.kind = kind :=
  Runs.exec_induction (I := fun t : OwnerLoop χ => t.kind = kind) rfl
    (fun _ _ _ ht hs => (kind_step hs).trans ht) h

/-- A `TcpConnection` whose channel was never updated is not in `kDisConnected`. -/
theorem state_of_guarded (h : Runs.exec step (start kind fd) as = some s)
    (hg : Runs.Guarded step (fun s a => ¬Updates c s a) (start kind fd) as)
    (hk : kind c ≠ .eventLoop) : s.state c = .kConnecting := by
  have hstep : ∀ t a t', (t.Inv ∧ t.kind = kind ∧ t.addedToLoop c = false ∧
      t.state c = .kConnecting) → ¬Updates c t a → t.step a = some t' →
        t'.Inv ∧ t'.kind = kind ∧ t'.addedToLoop c = false ∧ t'.state c = .kConnecting := by
    rintro t a t' ⟨hinv, hkind, hadded, hstate⟩ hu hs
    have hleaves : Leaves c t a t' := leaves_step hs
    have hadds : Adds c t a t' := adds_step (hkind ▸ hk) hs
    by_cases ha : a = .connectDestroyed c
    · -- it would fail an assertion of the poller
      subst ha
      obtain ⟨-, hs⟩ := Option.ite_none_right_eq_some.mp hs
      rw [OwnerLoop.connectDestroyed, if_neg (by rw [hstate]; nofun), Option.bind_some] at hs
      obtain ⟨p, hp, -⟩ := Option.map_eq_some_iff.mp hs
      rw [EpollPoller.removeChannel, Option.ite_none_right_eq_some] at hp
      rw [(hinv.added c).mpr hp.1.1] at hadded
      cases hadded
    · refine ⟨hinv.step hs, hleaves.kind.trans hkind, (hadds.keeps ha hu).trans hadded, ?_⟩
      exact (hleaves.state hu (by rw [hstate]; nofun)).trans hstate
  exact (Runs.exec_invariant (I := fun t : OwnerLoop χ => t.Inv ∧ t.kind = kind ∧
    t.addedToLoop c = false ∧ t.state c = .kConnecting) ⟨inv_start, rfl, rfl, rfl⟩ hstep hg h).2.2.2

/-- Only on a `TcpConnection` is `connectDestroyed` called. -/
theorem kind_of_settled (h : (start kind fd).Settled c as) : kind c = .tcpConnection := by
  obtain ⟨done, rest, t, -, ht, -⟩ := h
  obtain ⟨u, hu, hs⟩ := Runs.exec_concat_eq_some.mp ht
  obtain ⟨hc, -⟩ := Option.ite_none_right_eq_some.mp hs
  rw [← kind_of_exec hu]
  exact hc.2

/-- The channel of an `Acceptor` is updated by `listen` only. -/
theorem listen_of_updates {a : Action χ} (hk : s.kind c = .acceptor) (hs : s.step a = some s')
    (hu : Updates c s a) : a = .listen c := by
  have hnot (h : s.Is c .tcpConnection) : False := nomatch h.2.symm.trans hk
  cases a with
  | construct d =>
    obtain ⟨rfl, h | h⟩ := hu <;> cases h.symm.trans hk
  | listen d => exact congrArg _ hu
  | connectEstablished d | handleClose d =>
    cases hu
    exact (hnot (Option.ite_none_right_eq_some.mp hs).1).elim
  | sendInLoop d leaves | sendFileInLoop d leaves =>
    obtain ⟨rfl, -⟩ := hu
    exact (hnot (Option.ite_none_right_eq_some.mp hs).1).elim
  | handleWrite d completes =>
    obtain ⟨rfl, -⟩ := hu
    exact (hnot (Option.ite_none_right_eq_some.mp hs).1.1).elim
  | _ => exact hu.elim

/-- A living `TimerQueue` is registered. -/
theorem addedToLoop_of_timerQueue (h : Runs.exec step (start kind fd) as = some s)
    (hk : kind c = .timerQueue) (hc : c ∈ s.alive) : s.addedToLoop c = true := by
  refine (Runs.exec_induction (I := fun t : OwnerLoop χ => t.kind = kind ∧
    (c ∈ t.alive → t.addedToLoop c = true))
    ⟨rfl, fun hmem => absurd hmem List.not_mem_nil⟩ ?_ h).2 hc
  rintro t a t' ⟨hkind, hadded⟩ hs
  have hkc : t.kind c = .timerQueue := hkind ▸ hk
  have hadds : Adds c t a t' := adds_step (by rw [hkc]; nofun) hs
  refine ⟨hadds.kind.trans hkind, fun hc' => ?_⟩
  by_cases hu : Updates c t a
  · exact hadds.updates hu
  · rcases (leaves_step hs).alive hc' with hold | rfl
    · refine (hadds.keeps ?_ hu).trans (hadded hold)
      rintro rfl
      cases (Option.ite_none_right_eq_some.mp hs).1.2.symm.trans hkc
    · exact absurd ⟨rfl, .inl hkc⟩ hu

/-- `~EventLoop` removes its channel. -/
theorem addedToLoop_of_eventLoop (hk : s.kind c = .eventLoop) (hs : s.destructor c = some s') :
    s'.addedToLoop c = false := by
  rw [OwnerLoop.destructor, hk] at hs
  obtain ⟨t, -, hs⟩ := Option.bind_eq_some_iff.mp hs
  obtain ⟨p, -, rfl⟩ := Option.map_eq_some_iff.mp hs
  exact Function.update_self _ _ _

/-- **Which channels are deregistered before they are destroyed.** For all owners in a loop thread
and every sequence of operations on them, at the destructor of any of them: the assertions of
`~Channel` hold always for the channel of an `EventLoop`, never for that of a `TimerQueue`, for an
`Acceptor` exactly if `listen()` was not called, and for a `TcpConnection` exactly if
`connectDestroyed` was and nothing has updated the channel since. -/
theorem deregistered_iff_mayDestroy (h : Runs.exec step (start kind fd) as = some s)
    (hc : c ∈ s.alive)
    (hs : s.destructor c = some s') :
    s'.Deregistered c ↔ (start kind fd).MayDestroy c as := by
  have hinv : s.Inv := Runs.exec_induction inv_start (fun _ _ _ hi hs => Inv.step hi hs) h
  have hkind : s.kind = kind := kind_of_exec h
  obtain ⟨hinv', halive, -⟩ := hinv.destructor hc hs
  rw [hinv'.deregistered_iff (halive ▸ hc), MayDestroy]
  show _ ↔ match kind c with
    | .tcpConnection => (start kind fd).Settled c as
    | .acceptor => .listen c ∉ as
    | .timerQueue => False
    | .eventLoop => True
  have hadded (hk : kind c ≠ .eventLoop) : s'.addedToLoop c = s.addedToLoop c :=
    congrFun ((addedToLoop_destructor hs).2.1 (hkind ▸ hk)) c
  cases hk : kind c with
  | tcpConnection =>
    have hne : kind c ≠ .eventLoop := by rw [hk]; nofun
    rw [hadded hne, addedToLoop_iff h hne]
    refine or_iff_left fun hg => ?_
    -- `~TcpConnection` asserts that the connection was closed
    have hstate := state_of_guarded h hg hne
    rw [OwnerLoop.destructor, hkind, hk] at hs
    cases (Option.ite_none_right_eq_some.mp hs).1.symm.trans hstate
  | acceptor =>
    have hne : kind c ≠ .eventLoop := by rw [hk]; nofun
    rw [hadded hne, addedToLoop_iff h hne]
    refine ⟨?_, fun hlisten => .inr fun done a hd t ht hu => ?_⟩
    · rintro (hsettled | hg) hlisten
      · cases (kind_of_settled hsettled).symm.trans hk
      · obtain ⟨done, rest, rfl⟩ := List.append_of_mem hlisten
        obtain ⟨t, ht⟩ := Runs.exists_exec_of_done h (List.prefix_append done _)
        exact hg done (.listen c) ⟨rest, by simp⟩ t ht rfl
    · obtain ⟨t', ht'⟩ := Runs.exists_exec_of_done h hd
      obtain ⟨u, hu', hstep⟩ := Runs.exec_concat_eq_some.mp ht'
      cases ht.symm.trans hu'
      obtain rfl := listen_of_updates (by rw [kind_of_exec ht, hk]) hstep hu
      exact hlisten (hd.subset (List.mem_append_right _ (List.mem_singleton_self _)))
  | timerQueue =>
    have hne : kind c ≠ .eventLoop := by rw [hk]; nofun
    rw [hadded hne, addedToLoop_of_timerQueue h hk hc]
    exact iff_of_false Bool.true_eq_false.mp id
  | eventLoop => exact iff_of_true (addedToLoop_of_eventLoop (hkind ▸ hk) hs) trivial

/-- The owners in a loop: `0` is the `TimerQueue`, `1` the `EventLoop`, `2` the `Acceptor`, and the
others are `TcpConnection`s. -/
def kinds : ℕ → OwnerKind
  | 0 => .timerQueue
  | 1 => .eventLoop
  | 2 => .acceptor
  | _ => .tcpConnection

/-- A connection is established, sends something in two parts, and is closed. -/
def wholeLife : List (Action ℕ) :=
  [.construct 0, .construct 1, .construct 2, .listen 2, .construct 3, .connectEstablished 3,
    .sendInLoop 3 true, .handleWrite 3 true, .handleClose 3, .connectDestroyed 3]

/-- The theorem at work, on the connection. -/
theorem deregistered_iff_mayDestroy_wholeLife : ∃ s s' : OwnerLoop ℕ,
    Runs.exec step (start kinds (· + 4)) wholeLife = some s ∧ s.destructor 3 = some s' ∧
    s'.Deregistered 3 ∧ (s'.Deregistered 3 ↔ (start kinds (· + 4)).MayDestroy 3 wholeLife) := by
  have hrun : ((Runs.exec step (start kinds (· + 4)) wholeLife).bind fun s =>
      (s.destructor 3).map fun s' => (decide (3 ∈ s.alive), decide (s'.Deregistered 3))) =
        some (true, true) := by
    decide +kernel
  obtain ⟨s, hs, hrest⟩ := Option.bind_eq_some_iff.mp hrun
  obtain ⟨s', hs', hobs⟩ := Option.map_eq_some_iff.mp hrest
  obtain ⟨halive, hd⟩ := Prod.mk.inj hobs
  exact ⟨s, s', hs, hs', of_decide_eq_true hd,
    deregistered_iff_mayDestroy hs (of_decide_eq_true halive) hs'⟩

/-- **`~TimerQueue` leaves its channel registered**, when the `EventLoop` has removed its own. -/
theorem not_deregistered_timerQueue : ∃ s s' : OwnerLoop ℕ,
    Runs.exec step (start kinds (· + 4)) [.construct 0, .construct 1, .destroy 1] = some s ∧
    0 ∈ s.alive ∧ s.destructor 0 = some s' ∧ s'.addedToLoop 0 = true ∧
    s'.poller.channels 4 = some 0 ∧ ¬s'.Deregistered 0 := by
  have hrun : ((Runs.exec step (start kinds (· + 4)) [.construct 0, .construct 1,
      .destroy 1]).bind fun s => (s.destructor 0).map fun s' => (decide (0 ∈ s.alive),
        s'.addedToLoop 0, s'.poller.channels 4, decide (s'.Deregistered 0))) =
        some (true, true, some 0, false) := by
    decide +kernel
  obtain ⟨s, hs, hrest⟩ := Option.bind_eq_some_iff.mp hrun
  obtain ⟨s', hs', hobs⟩ := Option.map_eq_some_iff.mp hrest
  simp only [Prod.mk.injEq] at hobs
  obtain ⟨halive, hadded, hchannels, hd⟩ := hobs
  exact ⟨s, s', hs, of_decide_eq_true halive, hs', hadded, hchannels, of_decide_eq_false hd⟩

end OwnerLoop

end Net

end Muduo
