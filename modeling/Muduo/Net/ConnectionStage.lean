import Muduo.Net.ConnectionView

/-! # The stages of a connection's life

A connection is at all times in one of twelve stages (`Stage`). The stage says everything about its
view: its state, its channel, what the poller has for its fd, the functors that are queued for it,
the thread inside its member functions, whether `connMap_` has it, and whether `connectEstablished`
and `connectDestroyed` have run (`Valid`). A connection of an I/O loop that `~TcpServer` has let go
of is an orphan; its removal by `removeConnectionInLoop` may still be queued in the base loop, which
is stuck in `~TcpServer`.

`LawfulLife` says which event may come next in the history of a connection. -/

namespace Muduo

namespace Net

open Function (update)

/-- Which event may come next: `connectEstablished` comes first and on a live object, `state_` does
not move backwards, the server is there, `connectDestroyed` runs once, the assertions of
`removeChannel` hold, and the connection is destructed after that, in state `kDisConnected` and out
of the poller. -/
def LawfulLife : List Event → Event → Prop
  | done, .connectEstablished live => done = [] ∧ live = true
  | done, .wrote old new => done ≠ [] ∧ old.rank ≤ new.rank
  | done, .removeConnection serverThere => done ≠ [] ∧ serverThere = true
  | done, .connectDestroyed => done ≠ [] ∧ .connectDestroyed ∉ done
  | done, .removeChannel found same noneEvent =>
    done ≠ [] ∧ found = true ∧ same = true ∧ noneEvent = true
  | done, .destructed state inPoller =>
    .connectDestroyed ∈ done ∧ state = .kDisConnected ∧ inPoller = false

/-- The stages of a connection. -/
inductive Stage
  /-- `connectEstablished` is queued. -/
  | joining
  /-- Registered with the poller. -/
  | up
  /-- In `handleClose`, before `closeCallback_`. -/
  | closing
  /-- `removeConnectionInLoop` is queued. -/
  | removing
  /-- Closed, and `connectDestroyed` is queued. -/
  | leaving
  /-- `joining`, and `connectDestroyed` is queued behind `connectEstablished`. -/
  | joiningOrphan
  /-- `up`, and `connectDestroyed` is queued. -/
  | upOrphan
  /-- `closing`, and `connectDestroyed` is queued. -/
  | closingOrphan
  /-- `removing`, and `connectDestroyed` is queued. -/
  | removingOrphan
  /-- `removing`, and `connectDestroyed` has run. -/
  | leftOrphan
  /-- In `connectDestroyed`, before the assignment of `state_`. -/
  | destroying
  /-- `connectDestroyed` has run. -/
  | left
deriving DecidableEq, Repr

namespace Stage

/-- The states a connection can be in. -/
def states : Stage → List State
  | joining | joiningOrphan => [.kConnecting]
  | up | upOrphan | destroying => [.kConnected, .kDisConnecting]
  | _ => [.kDisConnected]

/-- `index_` of its channel. -/
def index : Stage → Index
  | joining | joiningOrphan | left | leftOrphan => .kNew
  | up | upOrphan | destroying => .kAdded
  | _ => .kDeleted

/-- `events_` of its channel. -/
def events (g : Stage) : ℕ := if g.index = .kAdded then Channel.kReadEvent else Channel.kNoneEvent

/-- What the poller has for its fd. -/
def registered (g : Stage) (c : ℕ) : Option ℕ := if g.index = .kNew then none else some c

/-- The functors about `c`, a connection of the loop `own`, in every loop. -/
def queue (g : Stage) (c own : ℕ) : ℕ → List Functor :=
  match g with
  | joining => update (fun _ => []) own [.connectEstablished c]
  | joiningOrphan => update (fun _ => []) own [.connectEstablished c, .connectDestroyed c]
  | removing | leftOrphan => update (fun _ => []) 0 [.removeConnectionInLoop c]
  | removingOrphan =>
    update (update (fun _ => []) own [.connectDestroyed c]) 0 [.removeConnectionInLoop c]
  | leaving | upOrphan | closingOrphan => update (fun _ => []) own [.connectDestroyed c]
  | up | closing | destroying | left => fun _ => []

/-- The threads in member functions of `c`. -/
def pc (g : Stage) (c own : ℕ) : ℕ → Pc :=
  match g with
  | closing | closingOrphan => update (fun _ => .idle) own (.handleClose c)
  | destroying => update (fun _ => .idle) own (.connectDestroyed c)
  | _ => fun _ => .idle

/-- Its entries in `connMap_`. -/
def mapped : Stage → ℕ
  | joining | up | closing | removing => 1
  | _ => 0

/-- `connectEstablished` has run. -/
def begun : Stage → Bool
  | joining | joiningOrphan => false
  | _ => true

/-- `connectDestroyed` has begun to run. -/
def destroyed : Stage → Bool
  | destroying | left | leftOrphan => true
  | _ => false

/-- `~TcpServer` has let go of a connection that was not removed. -/
def orphan : Stage → Bool
  | joiningOrphan | upOrphan | closingOrphan | removingOrphan | leftOrphan => true
  | _ => false

/-- Only connections of I/O loops are ever in this stage. -/
def remote (g : Stage) : Bool := g.orphan || g == joining || g == removing

/-- The stage of a connection of the loop `own` goes with the phase of the server. -/
structure Fits (g : Stage) (own : ℕ) (server : ServerPhase) : Prop where
  orphan : g.orphan = true → server ≠ .alive
  up : g = up → own = 0 → server ≠ .gone
  closing : g = closing → own = 0 → server = .alive

/-- A stage of which nothing is asked goes with every phase. -/
theorem fits_of_not {g : Stage} {own : ℕ} {server : ServerPhase}
    (h : (g.orphan || g == up || g == closing) = false) : g.Fits own server := by
  refine ⟨fun ho => ?_, ?_, ?_⟩
  · rw [ho] at h
    cases h
  · rintro rfl
    cases h
  · rintro rfl
    cases h

/-- An orphan goes with every phase of a server that is going. -/
theorem fits_of_orphan {g : Stage} {own : ℕ} {server : ServerPhase} (h : g.orphan = true)
    (hs : server ≠ .alive) : g.Fits own server := by
  refine ⟨fun _ => hs, ?_, ?_⟩
  · rintro rfl
    cases h
  · rintro rfl
    cases h

/-- A queue that only one loop has functors in. -/
theorem update_eq_cons {l own : ℕ} {fs rest : List Functor} {f : Functor}
    (h : update (fun _ => []) own fs l = f :: rest) : l = own ∧ fs = f :: rest := by
  by_cases hl : l = own
  · rw [hl, Function.update_self] at h
    exact ⟨hl, h⟩
  · rw [Function.update_of_ne hl] at h
    cases h

/-- What the first functor about a connection says about its stage. -/
theorem queue_eq_cons {g : Stage} {c own l : ℕ} {f : Functor} {rest : List Functor}
    (h : g.queue c own l = f :: rest) :
    (f = .connectEstablished c ∧ l = own ∧
      (g = .joining ∧ rest = [] ∨ g = .joiningOrphan ∧ rest = [.connectDestroyed c])) ∨
    (f = .removeConnectionInLoop c ∧ l = 0 ∧ rest = [] ∧ (g = .removing ∨ g.orphan = true)) ∨
    (f = .connectDestroyed c ∧ l = own ∧ rest = [] ∧
      (g = .leaving ∨ g = .upOrphan ∨ g = .closingOrphan ∨ g = .removingOrphan)) := by
  cases g with
  | joining =>
    obtain ⟨rfl, hf⟩ := update_eq_cons h
    cases hf
    exact .inl ⟨rfl, rfl, .inl ⟨rfl, rfl⟩⟩
  | joiningOrphan =>
    obtain ⟨rfl, hf⟩ := update_eq_cons h
    cases hf
    exact .inl ⟨rfl, rfl, .inr ⟨rfl, rfl⟩⟩
  | removing =>
    obtain ⟨rfl, hf⟩ := update_eq_cons h
    cases hf
    exact .inr (.inl ⟨rfl, rfl, rfl, .inl rfl⟩)
  | leftOrphan =>
    obtain ⟨rfl, hf⟩ := update_eq_cons h
    cases hf
    exact .inr (.inl ⟨rfl, rfl, rfl, .inr rfl⟩)
  | removingOrphan =>
    -- one functor in the base loop, the other in the loop of the connection
    by_cases hl : l = 0
    · rw [hl, queue, Function.update_self] at h
      cases h
      exact .inr (.inl ⟨rfl, hl, rfl, .inr rfl⟩)
    · rw [queue, Function.update_of_ne hl] at h
      obtain ⟨rfl, hf⟩ := update_eq_cons h
      cases hf
      exact .inr (.inr ⟨rfl, rfl, rfl, .inr (.inr (.inr rfl))⟩)
  | leaving =>
    obtain ⟨rfl, hf⟩ := update_eq_cons h
    cases hf
    exact .inr (.inr ⟨rfl, rfl, rfl, .inl rfl⟩)
  | upOrphan =>
    obtain ⟨rfl, hf⟩ := update_eq_cons h
    cases hf
    exact .inr (.inr ⟨rfl, rfl, rfl, .inr (.inl rfl)⟩)
  | closingOrphan =>
    obtain ⟨rfl, hf⟩ := update_eq_cons h
    cases hf
    exact .inr (.inr ⟨rfl, rfl, rfl, .inr (.inr (.inl rfl))⟩)
  | _ => cases h

theorem of_pc_handleClose {g : Stage} {c o : ℕ} (h : g.pc c o o = .handleClose c) :
    g = .closing ∨ g = .closingOrphan := by
  cases g <;> simp [pc] at h ⊢

theorem of_pc_connectDestroyed {g : Stage} {c o : ℕ}
    (h : g.pc c o o = .connectDestroyed c) : g = .destroying := by
  cases g <;> simp [pc] at h ⊢

end Stage

/-- What a stage says about the past. -/
structure Past (g : Stage) (history : List Event) : Prop where
  begun : history = [] ↔ g.begun = false
  destroyed : .connectDestroyed ∈ history ↔ g.destroyed = true
  lawful : Runs.Justified LawfulLife history

namespace Past

variable {g g' : Stage} {history : List Event}

theorem ne_nil (h : Past g history) (hb : g.begun = true) : history ≠ [] := by
  rw [ne_eq, h.begun, hb]
  exact Bool.noConfusion

theorem not_mem (h : Past g history) (hd : g.destroyed = false) : .connectDestroyed ∉ history := by
  rw [h.destroyed, hd]
  exact Bool.noConfusion

/-- An event other than `connectDestroyed`. -/
theorem concat (h : Past g history) {e : Event} (he : LawfulLife history e)
    (hne : e ≠ .connectDestroyed) (hb : g'.begun = true) (hd : g'.destroyed = g.destroyed) :
    Past g' (history ++ [e]) := by
  refine ⟨?_, ?_, h.lawful.concat he⟩
  · simp [hb]
  · rw [List.mem_append, List.mem_singleton, or_iff_left hne.symm, h.destroyed, hd]

/-- `connectDestroyed`. -/
theorem connectDestroyed (h : Past g history) (hb : g.begun = true) (hd : g.destroyed = false)
    (hb' : g'.begun = true) (hd' : g'.destroyed = true) :
    Past g' (history ++ [.connectDestroyed]) := by
  refine ⟨?_, ?_, h.lawful.concat ⟨h.ne_nil hb, h.not_mem hd⟩⟩
  · simp [hb']
  · simp [hd']

/-- Stages that agree on the past. -/
theorem congr (h : Past g history) (hb : g'.begun = g.begun) (hd : g'.destroyed = g.destroyed) :
    Past g' history := by
  refine ⟨?_, ?_, h.lawful⟩
  · rw [hb]
    exact h.begun
  · rw [hd]
    exact h.destroyed

end Past

/-- The connection `c`, which is `k`, is in the stage `g`. -/
structure Valid (c : ℕ) (k : Connection) (v : View) (g : Stage) : Prop where
  conn : v.conn = some k
  state : k.state ∈ g.states
  index : k.channel.index = g.index
  events : k.channel.events = g.events
  remote : g.remote = true → k.loop ≠ 0
  registered : v.registered = g.registered c
  queue : v.queue = g.queue c k.loop
  pc : v.pc = g.pc c k.loop
  mapped : v.mapped = g.mapped
  past : Past g v.history

/-- Nothing in the world is about a connection that is not there; `accepted` if it once was. -/
structure Absent (v : View) (accepted : Prop) : Prop where
  conn : v.conn = none
  queue : v.queue = fun _ => []
  pc : v.pc = fun _ => .idle
  mapped : v.mapped = 0
  history : v.history = [] ∨ accepted
  destroyed : accepted → .connectDestroyed ∈ v.history
  lawful : Runs.Justified LawfulLife v.history

@[simp] theorem update_const {β : Type} (l : ℕ) (x : β) : update (fun _ => x) l x = fun _ => x :=
  Function.update_eq_self l (fun _ => x)

namespace Valid

variable {c : ℕ} {k : Connection} {v : View} {g g' : Stage}

/-- `connectEstablished()`, on a connection that is owned by someone. -/
theorem established {q : ℕ → List Functor} (hstate : k.state = .kConnecting)
    (hevents : k.channel.events = Channel.kNoneEvent) (hhistory : v.history = [])
    (hpc : v.pc = fun _ => .idle) (hg' : g' = .up ∨ g' = .upOrphan)
    (hremote : g'.remote = true → k.loop ≠ 0) (hmapped : v.mapped = g'.mapped)
    (hq : q = g'.queue c k.loop) :
    Valid c (((k.setState .kConnected).setEvents
        (k.channel.events ||| Channel.kReadEvent)).setIndex .kAdded)
      { v with
        conn := some (((k.setState .kConnected).setEvents
          (k.channel.events ||| Channel.kReadEvent)).setIndex .kAdded)
        registered := some c
        queue := q
        history := v.history ++ [.connectEstablished true] ++ [.wrote k.state .kConnected] } g' := by
  have hpast : Past g'
      (v.history ++ [.connectEstablished true] ++ [.wrote k.state .kConnected]) := by
    have hfirst : Past .up (v.history ++ [.connectEstablished true]) := by
      refine ⟨by simp [Stage.begun], by simp [hhistory, Stage.destroyed], ?_⟩
      rw [hhistory]
      exact Runs.justified_nil.concat ⟨rfl, rfl⟩
    refine hfirst.concat ⟨by simp, ?_⟩ nofun ?_ ?_
    · rw [hstate]
      decide
    · rcases hg' with rfl | rfl <;> rfl
    · rcases hg' with rfl | rfl <;> rfl
  have hread : k.channel.events ||| Channel.kReadEvent = Channel.kReadEvent := by
    rw [hevents]
    rfl
  rcases hg' with rfl | rfl
  · exact ⟨rfl, List.mem_cons_self, rfl, hread, hremote, rfl, hq, hpc, hmapped, hpast⟩
  · exact ⟨rfl, List.mem_cons_self, rfl, hread, hremote, rfl, hq, hpc, hmapped, hpast⟩

/-- The assignment in `shutdown()`. -/
theorem shutdownWrite (h : Valid c k v g) (hg : g.index = .kAdded) :
    Valid c (k.setState .kDisConnecting) { v with
      conn := some (k.setState .kDisConnecting)
      history := v.history ++ [.wrote k.state .kDisConnecting] } g := by
  have hb : g.begun = true := by cases g <;> first | rfl | cases hg
  have hstates : g.states = [.kConnected, .kDisConnecting] := by cases g <;> first | rfl | cases hg
  have hrank : k.state.rank ≤ State.rank .kDisConnecting := by
    have hs := h.state
    rw [hstates, List.mem_pair] at hs
    rcases hs with hs | hs
    · rw [hs]
      decide
    · rw [hs]
  refine ⟨rfl, ?_, h.index, h.events, h.remote, h.registered, h.queue, h.pc, h.mapped,
    h.past.concat ⟨h.past.ne_nil hb, hrank⟩ nofun hb rfl⟩
  rw [hstates]
  exact List.mem_pair.mpr (.inr rfl)

/-- No state is behind `kDisConnected`. -/
theorem rank_le (s : State) : s.rank ≤ State.rank .kDisConnected := by
  cases s <;> decide

/-- `handleClose` up to `closeCallback_`. -/
theorem handleClose (h : Valid c k v g)
    (hg : g = .up ∧ g' = .closing ∨ g = .upOrphan ∧ g' = .closingOrphan) :
    Valid c (((k.setState .kDisConnected).setEvents Channel.kNoneEvent).setIndex .kDeleted) { v with
      conn := some (((k.setState .kDisConnected).setEvents Channel.kNoneEvent).setIndex .kDeleted)
      pc := update v.pc k.loop (.handleClose c)
      history := v.history ++ [.wrote k.state .kDisConnected] } g' := by
  have hpc : update v.pc k.loop (.handleClose c) =
      update (fun _ => .idle) k.loop (.handleClose c) := by
    rw [h.pc]
    rcases hg with ⟨rfl, rfl⟩ | ⟨rfl, rfl⟩ <;> rfl
  rcases hg with ⟨rfl, rfl⟩ | ⟨rfl, rfl⟩
  · exact ⟨rfl, List.mem_cons_self, rfl, rfl, nofun, h.registered, h.queue, hpc, h.mapped,
      h.past.concat ⟨h.past.ne_nil rfl, rank_le _⟩ nofun rfl rfl⟩
  · exact ⟨rfl, List.mem_cons_self, rfl, rfl, fun _ => h.remote rfl, h.registered, h.queue, hpc,
      h.mapped, h.past.concat ⟨h.past.ne_nil rfl, rank_le _⟩ nofun rfl rfl⟩

/-- `closeCallback_` in an I/O loop. -/
theorem closeCallback (h : Valid c k v g) (hl : k.loop ≠ 0)
    (hg : g = .closing ∧ g' = .removing ∨ g = .closingOrphan ∧ g' = .removingOrphan) :
    Valid c k { v with
      pc := update v.pc k.loop .idle
      history := v.history ++ [.removeConnection true]
      queue := update v.queue 0 (v.queue 0 ++ [.removeConnectionInLoop c]) } g' := by
  have hpc : update v.pc k.loop .idle = fun _ => .idle := by
    rw [h.pc]
    rcases hg with ⟨rfl, rfl⟩ | ⟨rfl, rfl⟩ <;> simp [Stage.pc]
  rcases hg with ⟨rfl, rfl⟩ | ⟨rfl, rfl⟩
  · refine ⟨h.conn, h.state, h.index, h.events, fun _ => hl, h.registered, ?_, hpc, h.mapped,
      h.past.concat ⟨h.past.ne_nil rfl, rfl⟩ nofun rfl rfl⟩
    rw [h.queue]
    rfl
  · refine ⟨h.conn, h.state, h.index, h.events, fun _ => hl, h.registered, ?_, hpc, h.mapped,
      h.past.concat ⟨h.past.ne_nil rfl, rfl⟩ nofun rfl rfl⟩
    rw [h.queue]
    simp [Stage.queue, Function.update_of_ne hl.symm]

/-- `closeCallback_` in the base loop. -/
theorem closeCallbackInLoop (h : Valid c k v .closing) :
    Valid c k { v with
      pc := update v.pc k.loop .idle
      history := v.history ++ [.removeConnection true] ++ [.removeConnection true]
      mapped := v.mapped - 1
      queue := update v.queue k.loop (v.queue k.loop ++ [.connectDestroyed c]) } .leaving := by
  have hpast : Past .closing (v.history ++ [.removeConnection true]) :=
    h.past.concat ⟨h.past.ne_nil rfl, rfl⟩ nofun rfl rfl
  refine ⟨h.conn, h.state, h.index, h.events, nofun, h.registered, ?_, ?_, ?_,
    hpast.concat ⟨hpast.ne_nil rfl, rfl⟩ nofun rfl rfl⟩
  · rw [h.queue]
    rfl
  · rw [h.pc]
    simp [Stage.pc]
  · rw [h.mapped]
    rfl

/-- `removeConnectionInLoop`. -/
theorem removeConnectionInLoop (h : Valid c k v .removing) :
    Valid c k { v with
      history := v.history ++ [.removeConnection true]
      mapped := v.mapped - 1
      queue := update (update v.queue 0 []) k.loop
        (update v.queue 0 [] k.loop ++ [.connectDestroyed c]) } .leaving := by
  refine ⟨h.conn, h.state, h.index, h.events, nofun, h.registered, ?_, h.pc, ?_,
    h.past.concat ⟨h.past.ne_nil rfl, rfl⟩ nofun rfl rfl⟩
  · rw [h.queue]
    simp [Stage.queue]
  · rw [h.mapped]
    rfl

/-- `connectDestroyed()` of a connection that is closed. -/
theorem connectDestroyed_left (h : Valid c k v g)
    (hg : g = .leaving ∧ g' = .left ∨ g = .removingOrphan ∧ g' = .leftOrphan) :
    Valid c (k.setIndex .kNew) { v with
      conn := some (k.setIndex .kNew)
      registered := none
      queue := update v.queue k.loop []
      history := v.history ++ [.connectDestroyed] ++
        [.removeChannel v.registered.isSome (v.registered == some c) k.channel.isNoneEvent] }
      g' := by
  have hevents : k.channel.events = Channel.kNoneEvent := by
    rw [h.events]
    rcases hg with ⟨rfl, rfl⟩ | ⟨rfl, rfl⟩ <;> rfl
  have hreg : v.registered = some c := by
    rw [h.registered]
    rcases hg with ⟨rfl, rfl⟩ | ⟨rfl, rfl⟩ <;> rfl
  have hpast : Past g' (v.history ++ [.connectDestroyed]) := by
    rcases hg with ⟨rfl, rfl⟩ | ⟨rfl, rfl⟩ <;> exact h.past.connectDestroyed rfl rfl rfl rfl
  have hassert : LawfulLife (v.history ++ [.connectDestroyed])
      (.removeChannel v.registered.isSome (v.registered == some c) k.channel.isNoneEvent) := by
    rw [hreg]
    refine ⟨by simp, rfl, beq_self_eq_true _, ?_⟩
    rw [Channel.isNoneEvent, hevents]
    rfl
  rcases hg with ⟨rfl, rfl⟩ | ⟨rfl, rfl⟩
  · refine ⟨rfl, h.state, rfl, hevents, nofun, rfl, ?_, h.pc, h.mapped,
      hpast.concat hassert nofun rfl rfl⟩
    rw [h.queue]
    simp [Stage.queue]
  · have hl : k.loop ≠ 0 := h.remote rfl
    refine ⟨rfl, h.state, rfl, hevents, fun _ => hl, rfl, ?_, h.pc, h.mapped,
      hpast.concat hassert nofun rfl rfl⟩
    rw [h.queue]
    simp only [Stage.queue]
    rw [Function.update_comm hl.symm, Function.update_idem, update_const]

/-- `connectDestroyed()` of a connection that is registered, up to the assignment. -/
theorem connectDestroyed_destroying {q : ℕ → List Functor} {m : ℕ} (h : Valid c k v g)
    (hg : g = .up ∨ g = .upOrphan) (hq : q = fun _ => []) (hm : m = 0) :
    Valid c k { v with
      queue := q
      mapped := m
      pc := update v.pc k.loop (.connectDestroyed c)
      history := v.history ++ [.connectDestroyed] } .destroying := by
  rcases hg with rfl | rfl
  · refine ⟨h.conn, h.state, h.index, h.events, nofun, h.registered, hq, ?_, hm,
      h.past.connectDestroyed rfl rfl rfl rfl⟩
    rw [h.pc]
    rfl
  · refine ⟨h.conn, h.state, h.index, h.events, nofun, h.registered, hq, ?_, hm,
      h.past.connectDestroyed rfl rfl rfl rfl⟩
    rw [h.pc]
    rfl

/-- `connectDestroyed()` from the assignment on. -/
theorem connectDestroyed_rest (h : Valid c k v .destroying) :
    Valid c ((((k.setState .kDisConnected).setEvents Channel.kNoneEvent).setIndex .kDeleted).setIndex
        .kNew) { v with
      conn := some ((((k.setState .kDisConnected).setEvents Channel.kNoneEvent).setIndex
        .kDeleted).setIndex .kNew)
      registered := none
      pc := update v.pc k.loop .idle
      history := v.history ++ [.wrote k.state .kDisConnected] ++
        [.removeChannel v.registered.isSome (v.registered == some c) true] } .left := by
  have hreg : v.registered = some c := h.registered
  have hpast : Past .destroying (v.history ++ [.wrote k.state .kDisConnected]) :=
    h.past.concat ⟨h.past.ne_nil rfl, rank_le _⟩ nofun rfl rfl
  have hassert : LawfulLife (v.history ++ [.wrote k.state .kDisConnected])
      (.removeChannel v.registered.isSome (v.registered == some c) true) := by
    rw [hreg]
    exact ⟨hpast.ne_nil rfl, rfl, beq_self_eq_true _, rfl⟩
  refine ⟨rfl, List.mem_cons_self, rfl, rfl, nofun, rfl, h.queue, ?_, h.mapped,
    hpast.concat hassert nofun rfl rfl⟩
  rw [h.pc]
  simp [Stage.pc]

/-- The stage after `~TcpServer` has queued `connectDestroyed`. -/
theorem orphan (h : Valid c k v g) (hl : k.loop ≠ 0) (hm : v.mapped ≠ 0) :
    ∃ g' : Stage, g'.orphan = true ∧ Valid c k { v with
      mapped := v.mapped - 1
      queue := update v.queue k.loop (v.queue k.loop ++ [.connectDestroyed c]) } g' := by
  have hmapped := h.mapped
  have hq := h.queue
  -- the four stages of a connection that `connMap_` has
  cases g with
  | joining =>
    refine ⟨.joiningOrphan, rfl, h.conn, h.state, h.index, h.events, fun _ => hl, h.registered, ?_,
      h.pc, ?_, h.past.congr rfl rfl⟩
    · rw [hq]
      simp [Stage.queue]
    · rw [hmapped]
      rfl
  | up =>
    refine ⟨.upOrphan, rfl, h.conn, h.state, h.index, h.events, fun _ => hl, h.registered, ?_, h.pc,
      ?_, h.past.congr rfl rfl⟩
    · rw [hq]
      rfl
    · rw [hmapped]
      rfl
  | closing =>
    refine ⟨.closingOrphan, rfl, h.conn, h.state, h.index, h.events, fun _ => hl, h.registered, ?_,
      h.pc, ?_, h.past.congr rfl rfl⟩
    · rw [hq]
      rfl
    · rw [hmapped]
      rfl
  | removing =>
    refine ⟨.removingOrphan, rfl, h.conn, h.state, h.index, h.events, fun _ => hl, h.registered, ?_,
      h.pc, ?_, h.past.congr rfl rfl⟩
    · rw [hq]
      simp [Stage.queue, Function.update_of_ne hl, Function.update_comm hl]
    · rw [hmapped]
      rfl
  | _ => exact absurd hmapped hm

/-- `~TcpConnection`. -/
theorem destruct (h : Valid c k v .left) {accepted : Prop} (ha : accepted) :
    Absent { v with
      conn := none
      registered := none
      history := v.history ++ [.destructed k.state (v.registered == some c)] } accepted := by
  have hd : .connectDestroyed ∈ v.history := h.past.destroyed.mpr rfl
  have hreg : v.registered = none := h.registered
  refine ⟨rfl, h.queue, h.pc, h.mapped, .inr ha, fun _ => List.mem_append_left _ hd,
    h.past.lawful.concat ⟨hd, List.mem_singleton.mp h.state, ?_⟩⟩
  rw [hreg]
  rfl

end Valid

end Net

end Muduo
