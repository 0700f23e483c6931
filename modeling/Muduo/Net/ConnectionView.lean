import Muduo.Net.TcpServer

/-! # One connection's view of the world

`World.view` is all that concerns one connection: its members, what the poller has for its fd, the
functors queued for it, the threads inside its member functions, its entry in `connMap_` and its
history. `Only d k w w'` says that nothing changes from `w` to `w'` but what concerns the connection
`d`; the operations of the server on one connection are of this kind. What such an operation does to
the view of `d` itself is said by the `view_…` lemmas. -/

namespace Muduo

namespace Net

open Function (update)

/-- The functor changes `c`. -/
def Functor.isAbout (c : ℕ) : Functor → Bool
  | .connectEstablished d => d == c
  | .shutdownInLoop _ => false
  | .removeConnectionInLoop d => d == c
  | .connectDestroyed d => d == c

/-- What concerns one connection. -/
@[ext] structure View where
  /-- The connection, unless it is freed. -/
  conn : Option Connection
  /-- What the poller of its loop has for its fd. -/
  registered : Option ℕ
  /-- The functors about it in every loop. -/
  queue : ℕ → List Functor
  /-- The threads in its member functions. -/
  pc : ℕ → Pc
  /-- Its entries in `connMap_`. -/
  mapped : ℕ
  /-- What has happened to it. -/
  history : List Event

namespace World

/-- The view of the connection `c`. -/
def view (w : World) (c : ℕ) : View where
  conn := w.conns c
  registered := (w.conns c).bind fun k => w.channels k.loop k.channel.fd
  queue := fun l => (w.queue l).filter (Functor.isAbout c)
  pc := fun l => if (w.pc l).holds c then w.pc l else .idle
  mapped := w.connMap.count c
  history := w.history c

variable {w : World} {c d : ℕ}

/-! ## What happens to another connection -/

theorem view_note_of_ne (h : c ≠ d) (e : Event) : (w.note d e).view c = w.view c := by
  simp only [view, note, Function.update_of_ne h]
  rfl

theorem view_queueInLoop_of_not {f : Functor} (h : f.isAbout c = false) (l : ℕ) :
    (w.queueInLoop l f).view c = w.view c := by
  have hq : (fun l' => ((w.queueInLoop l f).queue l').filter (Functor.isAbout c)) =
      fun l' => (w.queue l').filter (Functor.isAbout c) := by
    funext l'
    rw [queueInLoop]
    by_cases hl : l' = l
    · subst hl
      simp [h]
    · simp only [Function.update_of_ne hl]
  simp only [view, hq]
  rfl

/-- A thread that is in no member function of `c` goes to one of another connection. -/
theorem view_setPc_of_not {l : ℕ} {p : Pc} (h : (w.pc l).holds c = false) (hp : p.holds c = false) :
    (w.setPc l p).view c = w.view c := by
  have hpc : (fun l' => if ((w.setPc l p).pc l').holds c then (w.setPc l p).pc l' else .idle) =
      fun l' => if (w.pc l').holds c then w.pc l' else .idle := by
    funext l'
    by_cases hl : l' = l
    · subst hl
      simp [setPc, h, hp]
    · simp only [setPc, Function.update_of_ne hl]
  simp only [view, hpc]
  rfl

theorem view_setConn_of_ne (h : c ≠ d) (k : Connection) : (w.setConn d k).view c = w.view c := by
  simp only [view, setConn, Function.update_of_ne h]
  rfl

/-- The fd of another connection. -/
theorem view_setChannel_of_ne {fd : ℕ} (l : ℕ) (x : Option ℕ)
    (h : ∀ k ∈ w.conns c, k.channel.fd ≠ fd) : (w.setChannel l fd x).view c = w.view c := by
  have hr : ((w.conns c).bind fun k => (w.setChannel l fd x).channels k.loop k.channel.fd) =
      (w.conns c).bind fun k => w.channels k.loop k.channel.fd := by
    cases hc : w.conns c with
    | none => rfl
    | some k =>
      have hfd := h k hc
      by_cases hl : k.loop = l
      · simp [setChannel, hl, Function.update_of_ne hfd]
      · simp [setChannel, Function.update_of_ne hl]
  have hconn : (w.setChannel l fd x).conns = w.conns := rfl
  simp only [view, hconn, hr]
  rfl

theorem view_erase_of_ne (h : c ≠ d) :
    ({ w with connMap := w.connMap.erase d } : World).view c = w.view c := by
  simp only [view, List.count_erase_of_ne h]

/-- A functor is taken out of a queue. -/
theorem view_pop_of_not {l : ℕ} {f : Functor} {rest : List Functor} (hq : w.queue l = f :: rest)
    (hf : f.isAbout c = false) :
    ({ w with queue := update w.queue l rest } : World).view c = w.view c := by
  have hqueue : (fun l' => (update w.queue l rest l').filter (Functor.isAbout c)) =
      fun l' => (w.queue l').filter (Functor.isAbout c) := by
    funext l'
    by_cases hl : l' = l
    · subst hl
      rw [Function.update_self, hq, List.filter_cons_of_neg (by simp [hf])]
    · rw [Function.update_of_ne hl]
  simp only [view, hqueue]

/-! ## Steps that concern one connection -/

/-- What no connection changes while the server runs. -/
def static (w : World) : ℕ × ℕ × ℕ × ServerPhase := (w.numThreads, w.next, w.nextConnId, w.server)

/-- No other connection has the fd of `k`. -/
def Apart (w : World) (d : ℕ) (k : Connection) : Prop :=
  ∀ c, c ≠ d → ∀ k' ∈ w.conns c, k'.channel.fd ≠ k.channel.fd

/-- From `w` to `w'` nothing changes but what concerns the connection `d`, which is `k`. -/
structure Only (d : ℕ) (k : Connection) (w w' : World) : Prop where
  static : w'.static = w.static
  channels : ∀ l fd, w'.channels l fd = w.channels l fd ∨
    l = k.loop ∧ fd = k.channel.fd ∧ (w'.channels l fd = none ∨ w'.channels l fd = some d)
  others : ∀ c, c ≠ d → w'.view c = w.view c

namespace Only

variable {k : Connection} {w' w'' : World}

theorem trans (h : Only d k w w') (h' : Only d k w' w'') : Only d k w w'' := by
  refine ⟨h'.static.trans h.static, fun l fd => ?_,
    fun c hc => (h'.others c hc).trans (h.others c hc)⟩
  rcases h'.channels l fd with heq | hout
  · rw [heq]
    exact h.channels l fd
  · exact .inr hout

/-- The poller's entry is at the loop and the fd of the connection. -/
theorem congr {k' : Connection} (h : Only d k' w w') (hl : k'.loop = k.loop)
    (hfd : k'.channel.fd = k.channel.fd) : Only d k w w' := by
  refine ⟨h.static, fun l fd => ?_, h.others⟩
  rw [← hl, ← hfd]
  exact h.channels l fd

theorem note (e : Event) : Only d k w (w.note d e) :=
  ⟨rfl, fun _ _ => .inl rfl, fun _ hc => view_note_of_ne hc e⟩

theorem queueInLoop {f : Functor} (hf : ∀ c, c ≠ d → f.isAbout c = false) (l : ℕ) :
    Only d k w (w.queueInLoop l f) :=
  ⟨rfl, fun _ _ => .inl rfl, fun c hc => view_queueInLoop_of_not (hf c hc) l⟩

theorem setPc {l : ℕ} {p : Pc} (hl : ∀ c, c ≠ d → (w.pc l).holds c = false)
    (hp : ∀ c, c ≠ d → p.holds c = false) : Only d k w (w.setPc l p) :=
  ⟨rfl, fun _ _ => .inl rfl, fun c hc => view_setPc_of_not (hl c hc) (hp c hc)⟩

theorem setConn (k' : Connection) : Only d k w (w.setConn d k') :=
  ⟨rfl, fun _ _ => .inl rfl, fun _ hc => view_setConn_of_ne hc k'⟩

theorem setChannel {x : Option ℕ} (ha : w.Apart d k) (hx : x = none ∨ x = some d) :
    Only d k w (w.setChannel k.loop k.channel.fd x) := by
  refine ⟨rfl, fun l fd => ?_, fun c hc => view_setChannel_of_ne _ _ (ha c hc)⟩
  rw [World.setChannel]
  by_cases hl : l = k.loop
  · by_cases hfd : fd = k.channel.fd
    · right
      subst hl hfd
      simp only [Function.update_self]
      exact ⟨trivial, trivial, hx⟩
    · left
      subst hl
      simp only [Function.update_self, Function.update_of_ne hfd]
  · left
    simp only [Function.update_of_ne hl]

theorem erase : Only d k w { w with connMap := w.connMap.erase d } :=
  ⟨rfl, fun _ _ => .inl rfl, fun _ hc => view_erase_of_ne hc⟩

theorem pop {l : ℕ} {f : Functor} {rest : List Functor} (hq : w.queue l = f :: rest)
    (hf : ∀ c, c ≠ d → f.isAbout c = false) :
    Only d k w { w with queue := update w.queue l rest } :=
  ⟨rfl, fun _ _ => .inl rfl, fun c hc => view_pop_of_not hq (hf c hc)⟩

theorem updateChannel (ha : w.Apart d k) : Only d k w (w.updateChannel d k) := by
  rw [World.updateChannel]
  cases k.channel.index with
  | kNew => exact (setChannel ha (.inr rfl)).trans (setConn _)
  | kDeleted => exact setConn _
  | kAdded => exact setConn _

theorem removeChannel (ha : w.Apart d k) : Only d k w (w.removeChannel d k) :=
  ((note _).trans (setChannel (w := w.note d _) ha (.inl rfl))).trans (setConn _)

theorem disconnect (ha : w.Apart d k) : Only d k w (w.disconnect d k) :=
  (note _).trans ((updateChannel (w := w.note d _)
    (k := (k.setState .kDisConnected).setEvents Channel.kNoneEvent) ha).congr rfl rfl)

theorem connectEstablished (hk : w.conns d = some k) (ha : w.Apart d k) :
    Only d k w (w.connectEstablished d) := by
  rw [World.connectEstablished, hk]
  exact ((note _).trans (note _)).trans ((updateChannel (w := (w.note d _).note d _)
    (k := (k.setState .kConnected).setEvents (k.channel.events ||| Channel.kReadEvent)) ha).congr
      rfl rfl)

/-- A member function of `d` is about no other connection. -/
theorem holds_connectDestroyed {c : ℕ} (hc : c ≠ d) : Pc.holds c (.connectDestroyed d) = false :=
  beq_eq_false_iff_ne.mpr hc.symm

theorem connectDestroyed (hl : ∀ c, c ≠ d → (w.pc k.loop).holds c = false) (ha : w.Apart d k) :
    Only d k w (w.connectDestroyed d k) := by
  simp only [World.connectDestroyed]
  split_ifs
  · exact (note _).trans (setPc (w := w.note d _) hl fun c hc => holds_connectDestroyed hc)
  · exact (note _).trans (removeChannel (w := w.note d _) ha)

theorem isAbout_connectDestroyed {c : ℕ} (hc : c ≠ d) :
    Functor.isAbout c (.connectDestroyed d) = false :=
  beq_eq_false_iff_ne.mpr hc.symm

theorem removeConnectionInLoop : Only d k w (w.removeConnectionInLoop d k) := by
  simp only [World.removeConnectionInLoop]
  split_ifs
  · exact ((note _).trans erase).trans (queueInLoop (fun c hc => isAbout_connectDestroyed hc) _)
  · exact note _

theorem removeConnection : Only d k w (w.removeConnection d k) := by
  simp only [World.removeConnection]
  split_ifs
  · exact note _
  · exact (note _).trans removeConnectionInLoop
  · exact (note _).trans (queueInLoop (fun c hc => beq_eq_false_iff_ne.mpr hc.symm) _)

end Only

/-! ## What happens to the connection itself -/

theorem view_note (e : Event) :
    (w.note c e).view c = { w.view c with history := (w.view c).history ++ [e] } := by
  simp only [view, note, Function.update_self]
  rfl

theorem view_queueInLoop {f : Functor} (h : f.isAbout c = true) (l : ℕ) :
    (w.queueInLoop l f).view c =
      { w.view c with queue := update (w.view c).queue l ((w.view c).queue l ++ [f]) } := by
  have hq : (fun l' => ((w.queueInLoop l f).queue l').filter (Functor.isAbout c)) =
      update (w.view c).queue l ((w.view c).queue l ++ [f]) := by
    funext l'
    by_cases hl : l' = l
    · subst hl
      simp [queueInLoop, view, h]
    · simp only [queueInLoop, view, Function.update_of_ne hl]
  rw [← hq]
  rfl

theorem view_setPc (l : ℕ) {p : Pc} (hp : p = .idle ∨ p.holds c = true) :
    (w.setPc l p).view c = { w.view c with pc := update (w.view c).pc l p } := by
  have hpc : (fun l' => if ((w.setPc l p).pc l').holds c then (w.setPc l p).pc l' else .idle) =
      update (w.view c).pc l p := by
    funext l'
    by_cases hl : l' = l
    · subst hl
      rcases hp with rfl | hp
      · simp [setPc]
      · simp [setPc, hp]
    · simp only [setPc, view, Function.update_of_ne hl]
  rw [← hpc]
  rfl

/-- The loop and the fd of a connection do not change. -/
theorem view_setConn {k k' : Connection} (hk : w.conns c = some k) (hl : k'.loop = k.loop)
    (hfd : k'.channel.fd = k.channel.fd) :
    (w.setConn c k').view c = { w.view c with conn := some k' } := by
  simp only [view, setConn, Function.update_self, hk, Option.bind_some, hl, hfd]
  rfl

theorem view_setChannel {k : Connection} (hk : w.conns c = some k) (x : Option ℕ) :
    (w.setChannel k.loop k.channel.fd x).view c = { w.view c with registered := x } := by
  simp only [view, hk, Option.bind_some, setChannel, Function.update_self]
  rfl

theorem view_pop {l : ℕ} {f : Functor} {rest : List Functor} (hq : w.queue l = f :: rest) :
    ({ w with queue := update w.queue l rest } : World).view c = { w.view c with
      queue := update (w.view c).queue l (rest.filter (Functor.isAbout c)) } := by
  have hqueue : (fun l' => (update w.queue l rest l').filter (Functor.isAbout c)) =
      update (w.view c).queue l (rest.filter (Functor.isAbout c)) := by
    funext l'
    by_cases hl : l' = l
    · subst hl
      simp only [Function.update_self]
    · simp only [view, Function.update_of_ne hl]
  simp only [view, hqueue]

theorem view_erase (w : World) (c : ℕ) :
    ({ w with connMap := w.connMap.erase c } : World).view c =
      { w.view c with mapped := (w.view c).mapped - 1 } := by
  simp only [view, List.count_erase_self]

section

variable {k : Connection}

/-- The first registration of a channel. -/
theorem view_updateChannel_new {k₀ : Connection} (hk : w.conns c = some k₀) (hl : k.loop = k₀.loop)
    (hfd : k.channel.fd = k₀.channel.fd) (hi : k.channel.index = .kNew) :
    (w.updateChannel c k).view c = { w.view c with
      conn := some (k.setIndex .kAdded), registered := some c } := by
  have hset := view_setChannel hk (some c)
  rw [updateChannel, hi, hl, hfd]
  refine (view_setConn (w := w.setChannel k₀.loop k₀.channel.fd (some c)) hk ?_ ?_).trans ?_
  · exact hl
  · exact hfd
  · rw [hset]

/-- A channel without events is taken out of the poller's interest. -/
theorem view_updateChannel_none (hk : ∃ k₀, w.conns c = some k₀ ∧ k.loop = k₀.loop ∧
    k.channel.fd = k₀.channel.fd) (hi : k.channel.index = .kAdded)
    (hn : k.channel.isNoneEvent = true) :
    (w.updateChannel c k).view c = { w.view c with conn := some (k.setIndex .kDeleted) } := by
  obtain ⟨k₀, hk, hl, hfd⟩ := hk
  rw [updateChannel, hi]
  simp only [hn, if_true]
  exact view_setConn hk hl hfd

theorem view_removeChannel (hk : w.conns c = some k) :
    (w.removeChannel c k).view c = { w.view c with
      conn := some (k.setIndex .kNew)
      registered := none
      history := (w.view c).history ++ [.removeChannel (w.view c).registered.isSome
        ((w.view c).registered == some c) k.channel.isNoneEvent] } := by
  have hreg : w.channels k.loop k.channel.fd = (w.view c).registered := by
    simp only [view, hk, Option.bind_some]
  simp only [removeChannel, hreg]
  have hidx : (k.setIndex .kNew).loop = k.loop ∧ (k.setIndex .kNew).channel.fd = k.channel.fd :=
    ⟨rfl, rfl⟩
  refine (view_setConn (w := (w.note c _).setChannel k.loop k.channel.fd none) hk hidx.1
    hidx.2).trans ?_
  rw [view_setChannel (w := w.note c _) hk, view_note]

theorem view_disconnect (hk : w.conns c = some k) (hi : k.channel.index = .kAdded) :
    (w.disconnect c k).view c = { w.view c with
      conn := some (((k.setState .kDisConnected).setEvents Channel.kNoneEvent).setIndex .kDeleted)
      history := (w.view c).history ++ [.wrote k.state .kDisConnected] } := by
  refine (view_updateChannel_none (w := w.note c _)
    (k := (k.setState .kDisConnected).setEvents Channel.kNoneEvent) ⟨k, hk, rfl, rfl⟩ hi rfl).trans ?_
  rw [view_note]

theorem view_connectEstablished (hk : w.conns c = some k) (hi : k.channel.index = .kNew) :
    (w.connectEstablished c).view c = { w.view c with
      conn := some (((k.setState .kConnected).setEvents
        (k.channel.events ||| Channel.kReadEvent)).setIndex .kAdded)
      registered := some c
      history := (w.view c).history ++ [.connectEstablished (w.referenced c)] ++
        [.wrote k.state .kConnected] } := by
  rw [connectEstablished, hk]
  refine (view_updateChannel_new (w := (w.note c _).note c _)
    (k := (k.setState .kConnected).setEvents (k.channel.events ||| Channel.kReadEvent)) hk rfl rfl
    hi).trans ?_
  rw [view_note, view_note]

/-- `connectDestroyed()` that reads `kConnected`. -/
theorem view_connectDestroyed_connected (hs : k.state = .kConnected) :
    (w.connectDestroyed c k).view c = { w.view c with
      pc := update (w.view c).pc k.loop (.connectDestroyed c)
      history := (w.view c).history ++ [.connectDestroyed] } := by
  simp only [connectDestroyed, if_pos hs]
  rw [view_setPc (p := .connectDestroyed c) _ (.inr (beq_self_eq_true c)), view_note]

/-- `connectDestroyed()` that reads another state. -/
theorem view_connectDestroyed_of_ne (hk : w.conns c = some k) (hs : k.state ≠ .kConnected) :
    (w.connectDestroyed c k).view c = { w.view c with
      conn := some (k.setIndex .kNew)
      registered := none
      history := (w.view c).history ++ [.connectDestroyed] ++
        [.removeChannel (w.view c).registered.isSome ((w.view c).registered == some c)
          k.channel.isNoneEvent] } := by
  simp only [connectDestroyed, if_neg hs]
  rw [view_removeChannel (w := w.note c _) hk, view_note]

theorem view_removeConnectionInLoop (hs : w.server = .alive) :
    (w.removeConnectionInLoop c k).view c = { w.view c with
      mapped := (w.view c).mapped - 1
      queue := update (w.view c).queue k.loop ((w.view c).queue k.loop ++ [.connectDestroyed c])
      history := (w.view c).history ++ [.removeConnection true] } := by
  have hs' : (w.note c (.removeConnection true)).server = .alive := hs
  simp only [removeConnectionInLoop, hs, beq_self_eq_true, if_pos hs']
  rw [view_queueInLoop (f := .connectDestroyed c) (beq_self_eq_true c), view_erase (w.note c _),
    view_note]

/-- `removeConnection` in an I/O loop. -/
theorem view_removeConnection_of_ne (hs : w.server ≠ .gone) (hl : k.loop ≠ 0) :
    (w.removeConnection c k).view c = { w.view c with
      queue := update (w.view c).queue 0 ((w.view c).queue 0 ++ [.removeConnectionInLoop c])
      history := (w.view c).history ++ [.removeConnection true] } := by
  have hs' : (w.note c (.removeConnection true)).server ≠ .gone := hs
  simp only [removeConnection, bne_iff_ne.mpr hs, if_neg hs', if_neg hl]
  rw [view_queueInLoop (f := .removeConnectionInLoop c) (beq_self_eq_true c), view_note]

/-- `removeConnection` in the base loop. -/
theorem view_removeConnection_zero (hs : w.server = .alive) (hl : k.loop = 0) :
    (w.removeConnection c k).view c = { w.view c with
      mapped := (w.view c).mapped - 1
      queue := update (w.view c).queue k.loop ((w.view c).queue k.loop ++ [.connectDestroyed c])
      history := (w.view c).history ++ [.removeConnection true] ++ [.removeConnection true] } := by
  have hne : w.server ≠ .gone := by
    rw [hs]
    exact nofun
  have hne' : (w.note c (.removeConnection true)).server ≠ .gone := hne
  simp only [removeConnection, bne_iff_ne.mpr hne, if_neg hne', if_pos hl]
  rw [view_removeConnectionInLoop (w := w.note c _) hs, view_note]

end

/-! ## Where the threads are -/

theorem view_pc_idle {l : ℕ} (h : w.pc l = .idle) (c : ℕ) : (w.view c).pc l = .idle := by
  simp [view, h]

theorem view_pc_of_holds {l : ℕ} (h : (w.pc l).holds c = true) : (w.view c).pc l = w.pc l :=
  if_pos h

/-- The first functor in the queue of a loop, where it is about the connection. -/
theorem view_queue_cons {l : ℕ} {f : Functor} {rest : List Functor} (hq : w.queue l = f :: rest)
    (hf : f.isAbout c = true) :
    (w.view c).queue l = f :: rest.filter (Functor.isAbout c) := by
  simp only [view, hq]
  exact List.filter_cons_of_pos hf

end World

end Net

end Muduo
