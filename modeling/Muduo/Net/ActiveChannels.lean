import Muduo.Net.EpollPoller

/-! # The active channels of a pass

`EventLoop::loop` of `muduo/net/EventLoop.cc` goes through the channels that `poll` has reported.
What their handlers do to channels is a sequence of actions: any function of `Channel`, the close of
the connection whose handler runs, and the destruction of a `TcpServer` of this loop, one connection
after the other. So is what the functors do. Connections are named by their channels. Where
`connectDestroyed` calls `connectionCallback_` it is cut in two, for the callback may do all this
again. An assertion that fails ends the run. What is freed is not followed, nor is the end of
`~TcpServer`, which destructs the acceptor.

**`DispatchLoop.handled_good_iff`**: every event is for a channel that is registered and was not
removed in this pass, if and only if no action removes a channel that has its turn still to come in
this pass. `removeConnectionInLoop` queues the removal behind the pass; `~TcpServer` does not. -/

namespace Muduo

namespace Net

open Function (update)

/-- What is in `pendingFunctors_`: another functor does what the actions behind it say. -/
inductive Deferred (χ : Type*)
  | connectDestroyed (c : χ)
  | other
deriving DecidableEq, Repr

/-- Where the loop thread is. -/
inductive PassPhase (χ : Type*)
  /-- Before `loop()`. -/
  | setup
  | polling
  /-- In the loop over `activeChannels_`, between two handlers. -/
  | dispatching (todo : List χ)
  /-- In `handleEvent` of the channel `c`. -/
  | handling (c : χ) (todo : List χ)
  /-- In the loop of `doPendingFunctors`, between two functors. -/
  | functors (todo : List (Deferred χ))
  /-- In a functor. -/
  | calling (todo : List (Deferred χ))
deriving DecidableEq, Repr

/-- A call of `handleEvent`. -/
structure Handled (χ : Type*) where
  channel : χ
  /-- Whether the channel is in `channels_`. -/
  registered : Bool
  /-- Whether the channel was removed in this pass. -/
  removed : Bool
deriving DecidableEq, Repr

/-- The channel is in `channels_`, and was not removed. -/
def Handled.Good {χ : Type*} (e : Handled χ) : Prop := e.registered = true ∧ e.removed = false

/-- An `EventLoop` with the servers `σ` that live in it. -/
structure DispatchLoop (χ σ : Type*) where
  /-- `*poller_`. -/
  poller : EpollPoller χ
  /-- `state_` of the connections. -/
  state : χ → State
  /-- `connMap_` of the servers: the connections that live in this loop. -/
  connMap : σ → List χ
  /-- `pendingFunctors_`. -/
  pendingFunctors : List (Deferred χ)
  phase : PassPhase χ
  /-- The calls of `connectDestroyed` that are at `connectionCallback_`, the innermost first. -/
  frames : List χ
  /-- The channels that were removed since `poll` returned. -/
  removed : List χ
  /-- The calls of `handleEvent`, in order. -/
  handled : List (Handled χ)

namespace DispatchLoop

variable {χ σ : Type*}

/-- A loop with channels of the given fds, before `loop()`. -/
def new (fd : χ → ℕ) : DispatchLoop χ σ where
  poller := .new fd
  state _ := .kConnecting
  connMap _ := []
  pendingFunctors := []
  phase := .setup
  frames := []
  removed := []
  handled := []

/-- The loop thread is in code of the user's. -/
def inCallback (s : DispatchLoop χ σ) : Bool :=
  match s.phase with
  | .setup => true
  | .handling _ _ => true
  | .calling _ => true
  | _ => false

/-- The channels of `activeChannels_` that have their turn still to come. -/
def todo (s : DispatchLoop χ σ) : List χ :=
  match s.phase with
  | .dispatching todo => todo
  | .handling _ todo => todo
  | _ => []

/-- The loop thread goes on, with no call of `connectDestroyed` to finish. -/
def enter (s : DispatchLoop χ σ) (phase : PassPhase χ) : Option (DispatchLoop χ σ) :=
  if s.frames.isEmpty then some { s with phase := phase } else none

/-- `fillActiveChannels`, where `epoll_wait` has reported the fds `ready`. -/
def fillActiveChannels (s : DispatchLoop χ σ) (ready : List ℕ) : Option (List χ) :=
  ready.mapM fun fd => (s.poller.kernel fd).map Prod.snd

/-- `queueInLoop(f)`. -/
def queueInLoop (s : DispatchLoop χ σ) (f : Deferred χ) : DispatchLoop χ σ :=
  { s with pendingFunctors := s.pendingFunctors ++ [f] }

variable [DecidableEq χ] [DecidableEq σ]

omit [DecidableEq σ] in
/-- A function of `Channel` that changes `events_`. -/
def interest (s : DispatchLoop χ σ) (c : χ) (i : Interest) : Option (DispatchLoop χ σ) :=
  (s.poller.interest c i).map fun p => { s with poller := p }

omit [DecidableEq σ] in
/-- `Channel::remove()`. -/
def remove (s : DispatchLoop χ σ) (c : χ) : Option (DispatchLoop χ σ) :=
  (s.poller.removeChannel c).map fun p => { s with poller := p, removed := c :: s.removed }

omit [DecidableEq σ] in
/-- `state_=kDisConnected; sockChannel_->disableAll();` -/
def disconnect (s : DispatchLoop χ σ) (c : χ) : Option (DispatchLoop χ σ) :=
  { s with state := update s.state c .kDisConnected }.interest c .disableAll

omit [DecidableEq σ] in
/-- `connectDestroyed()` up to `connectionCallback_`. -/
def connectDestroyed (s : DispatchLoop χ σ) (c : χ) : Option (DispatchLoop χ σ) :=
  (if s.state c = .kConnected then s.disconnect c else some s).map fun s =>
    { s with frames := c :: s.frames }

/-- `connMap_` of the server `v` is now `l`. -/
def setConnMap (s : DispatchLoop χ σ) (v : σ) (l : List χ) : DispatchLoop χ σ :=
  { s with connMap := update s.connMap v l }

/-- `newConnection` and `connectEstablished`, for a new connection of the server `v`. -/
def newConnection (s : DispatchLoop χ σ) (v : σ) (c : χ) : Option (DispatchLoop χ σ) :=
  if s.state c = .kConnecting then
    { s.setConnMap v (s.connMap v ++ [c]) with
      state := update s.state c .kConnected }.interest c .enableReading
  else none

/-- What can happen. -/
inductive Action (χ σ : Type*)
  /-- `loop()` is called. -/
  | loop
  /-- `poll` returns, and has filled `activeChannels_`. -/
  | poll (ready : List ℕ)
  /-- `handleEvent` of the next active channel. -/
  | handleEvent
  | handlerReturns
  /-- `doPendingFunctors` takes the functors out. -/
  | doPendingFunctors
  | callFunctor
  | functorReturns
  /-- The next iteration of `loop()`. -/
  | nextIteration
  /-- Any thread queues a functor. -/
  | queueInLoop (f : Deferred χ)
  /-- A callback changes the interest of a channel. -/
  | interest (c : χ) (i : Interest)
  /-- A callback removes a channel. -/
  | remove (c : χ)
  | newConnection (v : σ) (c : χ)
  /-- `handleClose` of the channel that is being handled, up to `connectionCallback_`. -/
  | handleClose
  /-- `handleClose` goes on to `removeConnectionInLoop` of the server `v`. -/
  | closeCallback (v : σ)
  /-- `~TcpServer` of `v` comes to the connection `c`, and calls `connectDestroyed`. -/
  | destroyNext (v : σ) (c : χ)
  /-- `connectDestroyed` comes back from `connectionCallback_`, and removes the channel. -/
  | connectDestroyed
deriving DecidableEq, Repr

/-- One action. -/
def step (s : DispatchLoop χ σ) : Action χ σ → Option (DispatchLoop χ σ)
  | .loop =>
    match s.phase with
    | .setup => s.enter .polling
    | _ => none
  | .poll ready =>
    match s.phase with
    | .polling => (s.fillActiveChannels ready).map fun l =>
      { s with phase := .dispatching l, removed := [] }
    | _ => none
  | .handleEvent =>
    match s.phase with
    | .dispatching (c :: todo) => some { s with
        phase := .handling c todo
        handled := s.handled ++ [⟨c, decide (s.poller.Registered c), s.removed.contains c⟩] }
    | _ => none
  | .handlerReturns =>
    match s.phase with
    | .handling _ todo => s.enter (.dispatching todo)
    | _ => none
  | .doPendingFunctors =>
    match s.phase with
    | .dispatching [] => some { s with phase := .functors s.pendingFunctors, pendingFunctors := [] }
    | _ => none
  | .callFunctor =>
    match s.phase with
    | .functors (.connectDestroyed c :: todo) =>
      { s with phase := .calling todo }.connectDestroyed c
    | .functors (.other :: todo) => some { s with phase := .calling todo }
    | _ => none
  | .functorReturns =>
    match s.phase with
    | .calling todo => s.enter (.functors todo)
    | _ => none
  | .nextIteration =>
    match s.phase with
    | .functors [] => some { s with phase := .polling }
    | _ => none
  | .queueInLoop f => some (s.queueInLoop f)
  | .interest c i => if s.inCallback then s.interest c i else none
  | .remove c => if s.inCallback then s.remove c else none
  | .newConnection v c => if s.inCallback then s.newConnection v c else none
  | .handleClose =>
    match s.phase with
    | .handling c _ => s.disconnect c
    | _ => none
  | .closeCallback v =>
    match s.phase with
    | .handling c _ =>
      some ((s.setConnMap v ((s.connMap v).erase c)).queueInLoop (.connectDestroyed c))
    | _ => none
  | .destroyNext v c =>
    if s.inCallback ∧ c ∈ s.connMap v then
      (s.setConnMap v ((s.connMap v).erase c)).connectDestroyed c
    else none
  | .connectDestroyed =>
    match s.frames with
    | c :: frames => { s with frames := frames }.remove c
    | [] => none

omit [DecidableEq χ] [DecidableEq σ] in
/-- The channel that an action removes. -/
def removes (s : DispatchLoop χ σ) : Action χ σ → Option χ
  | .remove c => some c
  | .connectDestroyed => s.frames.head?
  | _ => none

/-- The action removes no channel that has its turn still to come in this pass. -/
def SparesActive (s : DispatchLoop χ σ) (a : Action χ σ) : Prop :=
  ∀ c ∈ s.removes a, c ∉ s.todo

omit [DecidableEq σ] in
instance (s : DispatchLoop χ σ) (a : Action χ σ) : Decidable (s.SparesActive a) :=
  inferInstanceAs (Decidable (∀ c ∈ s.removes a, c ∉ s.todo))

/-! ## What an action can do -/

variable {s t u : DispatchLoop χ σ} {c : χ}

/-- No channel is removed, none gets an event, and the pass is where it was. -/
structure Quiet (s t : DispatchLoop χ σ) : Prop where
  todo : t.todo = s.todo
  handled : t.handled = s.handled
  removed : t.removed = s.removed
  inv : s.poller.Inv → t.poller.Inv
  registered : s.poller.Inv → ∀ c, s.poller.Registered c → t.poller.Registered c

omit [DecidableEq χ] [DecidableEq σ] in
theorem Quiet.trans (h : Quiet s t) (h' : Quiet t u) : Quiet s u where
  todo := h'.todo.trans h.todo
  handled := h'.handled.trans h.handled
  removed := h'.removed.trans h.removed
  inv := fun hinv => h'.inv (h.inv hinv)
  registered := fun hinv c hc => h'.registered (h.inv hinv) c (h.registered hinv c hc)

omit [DecidableEq χ] [DecidableEq σ] in
/-- What does not touch the poller is quiet. -/
theorem quiet_of_eq (htodo : t.todo = s.todo) (hhandled : t.handled = s.handled)
    (hremoved : t.removed = s.removed) (hpoller : t.poller = s.poller) : Quiet s t :=
  ⟨htodo, hhandled, hremoved, fun h => hpoller ▸ h, fun _ _ hc => hpoller ▸ hc⟩

omit [DecidableEq σ] in
theorem quiet_interest {i : Interest} (hs : s.interest c i = some t) : Quiet s t := by
  obtain ⟨p, hp, rfl⟩ := Option.map_eq_some_iff.mp hs
  exact ⟨rfl, rfl, rfl, fun h => (h.of_interest hp).1, fun h => (h.of_interest hp).2⟩

omit [DecidableEq σ] in
theorem quiet_disconnect (hs : s.disconnect c = some t) : Quiet s t := by
  refine Quiet.trans ?_ (quiet_interest hs)
  exact quiet_of_eq rfl rfl rfl rfl

omit [DecidableEq σ] in
theorem quiet_connectDestroyed (hs : s.connectDestroyed c = some t) : Quiet s t := by
  obtain ⟨u, hu, rfl⟩ := Option.map_eq_some_iff.mp hs
  have hquiet : Quiet s u := by
    split_ifs at hu
    · exact quiet_disconnect hu
    · cases hu
      exact quiet_of_eq rfl rfl rfl rfl
  exact hquiet.trans (quiet_of_eq rfl rfl rfl rfl)

theorem quiet_newConnection {v : σ} (hs : s.newConnection v c = some t) : Quiet s t := by
  rw [newConnection, Option.ite_none_right_eq_some] at hs
  refine Quiet.trans ?_ (quiet_interest hs.2)
  exact quiet_of_eq rfl rfl rfl rfl

omit [DecidableEq χ] [DecidableEq σ] in
theorem quiet_enter {phase : PassPhase χ} (hs : s.enter phase = some t)
    (htodo : ({ s with phase := phase } : DispatchLoop χ σ).todo = s.todo) : Quiet s t := by
  rw [enter, Option.ite_none_right_eq_some] at hs
  cases hs.2
  exact quiet_of_eq htodo rfl rfl rfl

/-- **What an action can do.** -/
inductive Effect (s : DispatchLoop χ σ) (a : Action χ σ) (t : DispatchLoop χ σ) : Prop
  | quiet (removes : s.removes a = none) (quiet : Quiet s t)
  /-- The channel `c` is removed. -/
  | remove (c : χ) (removes : s.removes a = some c) (todo : t.todo = s.todo)
    (handled : t.handled = s.handled) (removed : t.removed = c :: s.removed)
    (inv : s.poller.Inv → t.poller.Inv)
    (registered : s.poller.Inv → ∀ d, d ≠ c → s.poller.Registered d → t.poller.Registered d)
  /-- A new pass begins. -/
  | poll (removes : s.removes a = none) (todo : s.todo = []) (handled : t.handled = s.handled)
    (removed : t.removed = []) (poller : t.poller = s.poller)
    (registered : s.poller.Inv → ∀ c ∈ t.todo, s.poller.Registered c)
  /-- The next channel gets its event. -/
  | dispatch (c : χ) (removes : s.removes a = none) (todo : s.todo = c :: t.todo)
    (handled : t.handled =
      s.handled ++ [⟨c, decide (s.poller.Registered c), s.removed.contains c⟩])
    (removed : t.removed = s.removed) (poller : t.poller = s.poller)

omit [DecidableEq σ] in
theorem effect_remove {a : Action χ σ} (ha : s.removes a = some c) (hs : s.remove c = some t) :
    Effect s a t := by
  obtain ⟨p, hp, rfl⟩ := Option.map_eq_some_iff.mp hs
  exact .remove c ha rfl rfl rfl (fun h => (h.of_removeChannel hp).1)
    fun h => (h.of_removeChannel hp).2

omit [DecidableEq χ] [DecidableEq σ] in
/-- What the kernel reports is registered. -/
theorem registered_of_fill {ready : List ℕ} {l : List χ} (h : s.poller.Inv)
    (hl : s.fillActiveChannels ready = some l) : ∀ c ∈ l, s.poller.Registered c := by
  rw [fillActiveChannels] at hl
  induction ready generalizing l with
  | nil =>
    cases hl
    exact nofun
  | cons fd ready ih =>
    simp only [List.mapM_cons, Option.pure_def, Option.bind_eq_bind, Option.bind_eq_some_iff,
      Option.map_eq_some_iff, Option.some_inj] at hl
    obtain ⟨c, ⟨e, he, rfl⟩, rest, hrest, rfl⟩ := hl
    -- `data.ptr` of the entry of an fd is the channel that the fd is registered for
    have hsome := h.kernel fd e.1 e.2 he
    refine List.forall_mem_cons.mpr ⟨?_, ih hrest⟩
    rw [EpollPoller.Registered, (h.channels fd e.2 hsome).1]
    exact hsome

/-- An action does nothing else. -/
theorem step_effect {a : Action χ σ} (hs : s.step a = some t) : Effect s a t := by
  cases a with
  | loop =>
    cases hphase : s.phase with
    | setup =>
      rw [step, hphase] at hs
      exact .quiet rfl (quiet_enter hs (by rw [todo, todo, hphase]))
    | _ => rw [step, hphase] at hs; cases hs
  | poll ready =>
    cases hphase : s.phase with
    | polling =>
      rw [step, hphase] at hs
      obtain ⟨l, hl, rfl⟩ := Option.map_eq_some_iff.mp hs
      exact .poll rfl (by rw [todo, hphase]) rfl rfl rfl fun h => registered_of_fill h hl
    | _ => rw [step, hphase] at hs; cases hs
  | handleEvent =>
    cases hphase : s.phase with
    | dispatching l =>
      cases l with
      | nil => rw [step, hphase] at hs; cases hs
      | cons c rest =>
        rw [step, hphase] at hs
        cases hs
        exact .dispatch c rfl (by rw [todo, hphase]; rfl) rfl rfl rfl
    | _ => rw [step, hphase] at hs; cases hs
  | handlerReturns =>
    cases hphase : s.phase with
    | handling c rest =>
      rw [step, hphase] at hs
      exact .quiet rfl (quiet_enter hs (by rw [todo, todo, hphase]))
    | _ => rw [step, hphase] at hs; cases hs
  | doPendingFunctors =>
    cases hphase : s.phase with
    | dispatching l =>
      cases l with
      | nil =>
        rw [step, hphase] at hs
        cases hs
        exact .quiet rfl (quiet_of_eq (by rw [todo, todo, hphase]) rfl rfl rfl)
      | cons c rest => rw [step, hphase] at hs; cases hs
    | _ => rw [step, hphase] at hs; cases hs
  | callFunctor =>
    cases hphase : s.phase with
    | functors l =>
      have htodo (l' : List (Deferred χ)) :
          ({ s with phase := .calling l' } : DispatchLoop χ σ).todo = s.todo := by
        rw [todo, todo, hphase]
      cases l with
      | nil => rw [step, hphase] at hs; cases hs
      | cons f rest =>
        cases f with
        | connectDestroyed c =>
          rw [step, hphase] at hs
          exact .quiet rfl ((quiet_of_eq (htodo rest) rfl rfl rfl).trans
            (quiet_connectDestroyed hs))
        | other =>
          rw [step, hphase] at hs
          cases hs
          exact .quiet rfl (quiet_of_eq (htodo rest) rfl rfl rfl)
    | _ => rw [step, hphase] at hs; cases hs
  | functorReturns =>
    cases hphase : s.phase with
    | calling l =>
      rw [step, hphase] at hs
      exact .quiet rfl (quiet_enter hs (by rw [todo, todo, hphase]))
    | _ => rw [step, hphase] at hs; cases hs
  | nextIteration =>
    cases hphase : s.phase with
    | functors l =>
      cases l with
      | nil =>
        rw [step, hphase] at hs
        cases hs
        exact .quiet rfl (quiet_of_eq (by rw [todo, todo, hphase]) rfl rfl rfl)
      | cons f rest => rw [step, hphase] at hs; cases hs
    | _ => rw [step, hphase] at hs; cases hs
  | queueInLoop f =>
    cases hs
    exact .quiet rfl (quiet_of_eq rfl rfl rfl rfl)
  | interest c i =>
    rw [step, Option.ite_none_right_eq_some] at hs
    exact .quiet rfl (quiet_interest hs.2)
  | remove c =>
    rw [step, Option.ite_none_right_eq_some] at hs
    exact effect_remove rfl hs.2
  | newConnection v c =>
    rw [step, Option.ite_none_right_eq_some] at hs
    exact .quiet rfl (quiet_newConnection hs.2)
  | handleClose =>
    cases hphase : s.phase with
    | handling c rest =>
      rw [step, hphase] at hs
      exact .quiet rfl (quiet_disconnect hs)
    | _ => rw [step, hphase] at hs; cases hs
  | closeCallback v =>
    cases hphase : s.phase with
    | handling c rest =>
      rw [step, hphase] at hs
      cases hs
      exact .quiet rfl (quiet_of_eq rfl rfl rfl rfl)
    | _ => rw [step, hphase] at hs; cases hs
  | destroyNext v c =>
    rw [step, Option.ite_none_right_eq_some] at hs
    refine .quiet rfl (Quiet.trans ?_ (quiet_connectDestroyed hs.2))
    exact quiet_of_eq rfl rfl rfl rfl
  | connectDestroyed =>
    cases hframes : s.frames with
    | nil => rw [step, hframes] at hs; cases hs
    | cons c frames =>
      rw [step, hframes] at hs
      have hremoves : ({ s with frames := frames } : DispatchLoop χ σ).remove c = some t := hs
      obtain ⟨p, hp, rfl⟩ := Option.map_eq_some_iff.mp hremoves
      exact .remove c (by rw [removes, hframes]; rfl) rfl rfl rfl
        (fun h => (h.of_removeChannel hp).1) fun h => (h.of_removeChannel hp).2

/-! ## Events for registered channels -/

/-- The channels that have their turn still to come are registered and were not removed, and every
event was for such a channel. -/
structure Sound (s : DispatchLoop χ σ) : Prop where
  registered : ∀ c ∈ s.todo, s.poller.Registered c
  present : ∀ c ∈ s.todo, c ∉ s.removed
  good : ∀ e ∈ s.handled, e.Good

/-- A removed channel has got an event, or will get one in this pass. -/
def Broken (s : DispatchLoop χ σ) : Prop :=
  (∃ e ∈ s.handled, ¬ e.Good) ∨ ∃ c ∈ s.todo, c ∈ s.removed

theorem inv_step {a : Action χ σ} (h : s.poller.Inv) (hs : s.step a = some t) : t.poller.Inv := by
  cases step_effect hs with
  | quiet _ hquiet => exact hquiet.inv h
  | remove _ _ _ _ _ hinv => exact hinv h
  | poll _ _ _ _ hpoller => exact hpoller ▸ h
  | dispatch _ _ _ _ _ hpoller => exact hpoller ▸ h

/-- **An action that spares the active channels** keeps the events good. -/
theorem Sound.step {a : Action χ σ} (hinv : s.poller.Inv) (h : s.Sound) (ha : s.SparesActive a)
    (hs : s.step a = some t) : t.Sound := by
  cases step_effect hs with
  | quiet _ hquiet =>
    refine ⟨fun c hc => ?_, fun c hc => ?_, hquiet.handled ▸ h.good⟩
    · rw [hquiet.todo] at hc
      exact hquiet.registered hinv c (h.registered c hc)
    · rw [hquiet.todo] at hc
      rw [hquiet.removed]
      exact h.present c hc
  | remove c hremoves htodo hhandled hremoved _ hreg =>
    have hspared : c ∉ s.todo := ha c hremoves
    refine ⟨fun d hd => ?_, fun d hd => ?_, hhandled ▸ h.good⟩
    · rw [htodo] at hd
      exact hreg hinv d (ne_of_mem_of_not_mem hd hspared) (h.registered d hd)
    · rw [htodo] at hd
      rw [hremoved, List.mem_cons, not_or]
      exact ⟨ne_of_mem_of_not_mem hd hspared, h.present d hd⟩
  | poll _ _ hhandled hremoved hpoller hreg =>
    refine ⟨fun c hc => ?_, fun c _ => ?_, hhandled ▸ h.good⟩
    · rw [hpoller]
      exact hreg hinv c hc
    · rw [hremoved]
      exact List.not_mem_nil
  | dispatch c _ htodo hhandled hremoved hpoller =>
    obtain ⟨hc, hrest⟩ := List.forall_mem_cons.mp (htodo ▸ h.registered)
    obtain ⟨hcr, hrestr⟩ := List.forall_mem_cons.mp (htodo ▸ h.present)
    refine ⟨hpoller ▸ hrest, hremoved ▸ hrestr, ?_⟩
    rw [hhandled]
    refine List.forall_mem_append.mpr ⟨h.good, List.forall_mem_singleton.mpr ⟨?_, ?_⟩⟩
    · exact decide_eq_true hc
    · simpa using hcr

/-- An action that does not spare the active channels breaks something. -/
theorem broken_of_not_spares {a : Action χ σ} (ha : ¬ s.SparesActive a) (hs : s.step a = some t) :
    t.Broken := by
  simp only [SparesActive, not_forall, not_not] at ha
  obtain ⟨c, hc, hmem⟩ := ha
  cases step_effect hs with
  | quiet hremoves => cases hremoves.symm.trans hc
  | remove d hremoves htodo _ hremoved =>
    obtain rfl : d = c := Option.some.inj (hremoves.symm.trans hc)
    exact .inr ⟨d, htodo ▸ hmem, hremoved ▸ List.mem_cons_self⟩
  | poll hremoves => cases hremoves.symm.trans hc
  | dispatch _ hremoves => cases hremoves.symm.trans hc

/-- What is broken stays broken. -/
theorem Broken.step {a : Action χ σ} (h : s.Broken) (hs : s.step a = some t) : t.Broken := by
  cases step_effect hs with
  | quiet _ hquiet => rwa [Broken, hquiet.handled, hquiet.todo, hquiet.removed]
  | remove c _ htodo hhandled hremoved =>
    rw [Broken, hhandled, htodo, hremoved]
    exact h.imp_right fun ⟨d, hd, hdr⟩ => ⟨d, hd, List.mem_cons_of_mem c hdr⟩
  | poll _ htodo hhandled =>
    rcases h with hbad | ⟨c, hc, -⟩
    · exact .inl (hhandled ▸ hbad)
    · rw [htodo] at hc
      cases hc
  | dispatch c _ htodo hhandled hremoved =>
    rw [Broken, hhandled, hremoved]
    rcases h with ⟨e, he, hbad⟩ | ⟨d, hd, hdr⟩
    · exact .inl ⟨e, List.mem_append_left _ he, hbad⟩
    · rw [htodo] at hd
      rcases List.mem_cons.mp hd with rfl | hd
      · -- its turn has come
        refine .inl ⟨_, List.mem_append_right _ List.mem_cons_self, fun hgood => ?_⟩
        have hnot : s.removed.contains d = false := hgood.2
        simp [hdr] at hnot
      · exact .inr ⟨d, hd, hdr⟩

/-- **When events are only dispatched to registered channels.** In every run of a loop, with any
channels, connections and servers: if no action removes a channel that has its turn still to come in
the pass, every `handleEvent` is made on a channel that is in `channels_` and was not removed in the
pass; and where no channel has its turn still to come at the end, only then. -/
theorem handled_good_iff {fd : χ → ℕ} {as : List (Action χ σ)}
    (h : Runs.exec step (new fd) as = some s) :
    (Runs.Guarded step SparesActive (new fd) as → ∀ e ∈ s.handled, e.Good) ∧
      (s.todo = [] →
        ((∀ e ∈ s.handled, e.Good) ↔ Runs.Guarded step SparesActive (new fd) as)) := by
  have hnew : (new fd : DispatchLoop χ σ).poller.Inv := EpollPoller.inv_new
  have hgood (hg : Runs.Guarded step SparesActive (new fd) as) : ∀ e ∈ s.handled, e.Good := by
    have hsound : (new fd : DispatchLoop χ σ).Sound := ⟨nofun, nofun, nofun⟩
    have hstep : ∀ (s : DispatchLoop χ σ) (a : Action χ σ) (t : DispatchLoop χ σ),
        s.poller.Inv ∧ s.Sound → s.SparesActive a → s.step a = some t →
          t.poller.Inv ∧ t.Sound :=
      fun _ _ _ hs ha hst => ⟨inv_step hs.1 hst, hs.2.step hs.1 ha hst⟩
    exact (Runs.exec_invariant ⟨hnew, hsound⟩ hstep hg h).2.good
  refine ⟨hgood, fun hend => ⟨fun hall => ?_, hgood⟩⟩
  have hbroken : Runs.Guarded step SparesActive (new fd) as ∨ s.Broken :=
    Runs.guarded_or (I := fun s : DispatchLoop χ σ => s.poller.Inv) hnew
      (fun _ _ _ hs hst => inv_step hs hst) (fun _ _ _ _ ha hst => broken_of_not_spares ha hst)
      (fun _ _ _ _ hs hst => hs.step hst) h
  refine hbroken.resolve_right ?_
  rintro (⟨e, he, hbad⟩ | ⟨c, hc, -⟩)
  · exact hbad (hall e he)
  · rw [hend] at hc
    cases hc

/-- A connection is closed in the pass, and destroyed behind it. -/
def closed : List (Action Bool Unit) :=
  [.newConnection () false, .interest true .enableReading, .loop, .poll [3, 4], .handleEvent,
    .handleClose, .closeCallback (), .handlerReturns, .handleEvent, .handlerReturns,
    .doPendingFunctors, .callFunctor, .connectDestroyed, .functorReturns, .nextIteration]

/-- The channels of the runs above and below. -/
def fds : Bool → ℕ
  | false => 3
  | true => 4

/-- The theorem at work: the run meets the condition, so both its events are good. -/
theorem handled_good_iff_closed : ∃ s : DispatchLoop Bool Unit,
    Runs.exec step (new fds) closed = some s ∧ s.todo = [] ∧ s.handled.length = 2 ∧
      ∀ e ∈ s.handled, e.Good := by
  have hrun : (Runs.exec step (new fds : DispatchLoop Bool Unit) closed).map
      (fun s => (s.todo, s.handled.length)) = some ([], 2) := by
    decide +kernel
  obtain ⟨s, hs, hobs⟩ := Option.map_eq_some_iff.mp hrun
  obtain ⟨htodo, hlen⟩ := Prod.mk.inj hobs
  exact ⟨s, hs, htodo, hlen, ((handled_good_iff hs).2 htodo).mpr (by decide +kernel)⟩

/-- A handler removes another channel that is active. -/
def removedActive : List (Action Bool Unit) :=
  [.interest false .enableReading, .interest true .enableReading, .loop, .poll [3, 4],
    .handleEvent, .interest true .disableAll, .remove true, .handlerReturns, .handleEvent]

/-- **A channel that is removed before its turn** gets its event. -/
theorem not_handled_good : ¬ ∀ (fd : Bool → ℕ) (as : List (Action Bool Unit))
    (s : DispatchLoop Bool Unit), Runs.exec step (new fd) as = some s →
      ∀ e ∈ s.handled, e.Good := by
  intro hall
  have hrun : (Runs.exec step (new fds : DispatchLoop Bool Unit) removedActive).map handled =
      some [⟨false, true, false⟩, ⟨true, false, true⟩] := by
    decide +kernel
  obtain ⟨s, hs, hhandled⟩ := Option.map_eq_some_iff.mp hrun
  have hgood := hall fds removedActive s hs ⟨true, false, true⟩ (by rw [hhandled]; simp)
  exact Bool.false_ne_true hgood.1

end DispatchLoop

end Net

end Muduo
