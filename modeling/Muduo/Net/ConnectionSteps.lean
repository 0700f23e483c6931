import Muduo.Net.ConnectionLife

/-! # The actions and the stages

What each action makes of the stage of the connection it is about. Three of them need something of
the state before: `connectDestroyed` must not find the connection `kDisConnecting`, and `shutdown()`
must not write over `kDisConnected` (`World.Orderly`). -/

namespace Muduo

namespace Net

namespace World

open Function (update)

/-- `connectDestroyed` does not find the connection `kDisConnecting`, and a `shutdown()` that has
read `kConnected` does not find it `kDisConnected` when it writes. -/
def Orderly (w : World) : Action → Prop
  | .runFunctor l => ∀ c rest, w.queue l = .connectDestroyed c :: rest →
    ∀ k, w.conns c = some k → k.state ≠ .kDisConnecting
  | .destructNext c => ∀ k, w.conns c = some k → k.loop = 0 → k.state ≠ .kDisConnecting
  | .shutdownWrite c _ => ∀ k, w.conns c = some k → k.state ≠ .kDisConnected
  | _ => True

/-- The connection that `runFunctor l` runs `connectDestroyed` of. -/
def nextDestroyed (w : World) (l : ℕ) : Option ℕ :=
  match w.queue l with
  | .connectDestroyed c :: _ => some c
  | _ => none

theorem nextDestroyed_eq_some {w : World} {l c : ℕ} :
    w.nextDestroyed l = some c ↔ ∃ rest, w.queue l = .connectDestroyed c :: rest := by
  rw [nextDestroyed]
  split
  · next d rest hq => simp [hq]
  · next hne =>
    refine iff_of_false (by nofun) ?_
    rintro ⟨rest, hq⟩
    exact hne c rest hq

instance (w : World) : (a : Action) → Decidable (w.Orderly a)
  | .runFunctor l =>
    decidable_of_iff
      (∀ c ∈ w.nextDestroyed l, ∀ k ∈ w.conns c, k.state ≠ .kDisConnecting)
      ⟨fun h c rest hq => h c (nextDestroyed_eq_some.mpr ⟨rest, hq⟩),
        fun h c hc => (nextDestroyed_eq_some.mp hc).elim fun rest hq => h c rest hq⟩
  | .destructNext c =>
    inferInstanceAs (Decidable (∀ k ∈ w.conns c, k.loop = 0 → k.state ≠ .kDisConnecting))
  | .shutdownWrite c _ =>
    inferInstanceAs (Decidable (∀ k ∈ w.conns c, k.state ≠ .kDisConnected))
  | .newConnection _ | .handleClose _ | .closeCallback _ | .connectDestroyed _ | .shutdown _
  | .destructServer | .destructEnd | .hold _ | .release _ | .destruct _ => isTrue trivial

variable {w : World} {c l : ℕ} {k : Connection}

theorem pc_of_free (h : w.free l = true) : w.pc l = .idle := by
  rw [free, Bool.and_eq_true, beq_iff_eq] at h
  exact h.1

theorem server_of_free (h : w.free 0 = true) : w.server ≠ .destructing := by
  intro hs
  simp [free, hs] at h

theorem holds_of_idle (h : w.pc l = .idle) (d : ℕ) : (w.pc l).holds d = false := by
  rw [h]
  rfl

theorem disconnect_pc (w : World) (c : ℕ) (k : Connection) : (w.disconnect c k).pc = w.pc := by
  simp only [disconnect, updateChannel]
  split <;> rfl

/-- A connection of an I/O loop means that there are I/O loops. -/
theorem Ordered.server_ne_gone (h : w.Ordered) (hk : w.conns c = some k) (hl : k.loop ≠ 0) :
    w.server ≠ .gone := by
  intro hs
  have hle := (h.conn c k hk).2
  rw [h.gone hs] at hle
  exact hl (Nat.le_zero.mp hle)

namespace Inv

/-- The peer has closed. -/
theorem handleClose (h : w.Inv) (hk : w.conns c = some k) (hfree : w.free k.loop = true)
    (hi : k.channel.index = .kAdded) :
    ((w.disconnect c k).setPc k.loop (.handleClose c)).Inv := by
  obtain ⟨g, hg, hfit⟩ := h.staged c k hk
  have hidle := pc_of_free hfree
  have hpc : g.pc c k.loop k.loop = .idle := by
    rw [← hg.pc]
    exact view_pc_idle hidle c
  have hup : g = .up ∨ g = .upOrphan := by
    have hindex := hg.index.symm.trans hi
    cases g <;> simp [Stage.index, Stage.pc] at hindex hpc ⊢
  have honly : Only c k w ((w.disconnect c k).setPc k.loop (.handleClose c)) := by
    refine (Only.disconnect (h.apart hk)).trans (Only.setPc (fun d _ => ?_) fun d hd => ?_)
    · rw [disconnect_pc]
      exact holds_of_idle hidle d
    · exact beq_eq_false_iff_ne.mpr hd.symm
  have hview := view_setPc (w := w.disconnect c k) (p := .handleClose c) k.loop
    (.inr (beq_self_eq_true c))
  rw [view_disconnect hk hi] at hview
  -- with `connectDestroyed` queued behind (`upOrphan`) it stays queued behind
  rcases hup with rfl | rfl
  · refine h.of_only hk honly hview (hg.handleClose (.inl ⟨rfl, rfl⟩)) rfl rfl
      ⟨by rintro ⟨⟩, by rintro ⟨⟩, fun _ hl => ?_⟩
    -- the base loop is not in `~TcpServer`, and the server has the connection
    have hl : k.loop = 0 := hl
    have hdestructing := server_of_free (hl ▸ hfree)
    have hgone := hfit.up rfl hl
    cases hs : w.server with
    | alive => rfl
    | destructing => exact absurd hs hdestructing
    | gone => exact absurd hs hgone
  · exact h.of_only hk honly hview (hg.handleClose (.inr ⟨rfl, rfl⟩)) rfl rfl
      (Stage.fits_of_orphan rfl (hfit.orphan rfl))

/-- `handleClose` goes on with `closeCallback_`. -/
theorem closeCallback (h : w.Inv) (hk : w.conns c = some k) (hpc : w.pc k.loop = .handleClose c) :
    ((w.setPc k.loop .idle).removeConnection c k).Inv := by
  obtain ⟨g, hg, hfit⟩ := h.staged c k hk
  have hholds : (w.pc k.loop).holds c = true := by
    rw [hpc]
    exact beq_self_eq_true c
  have hclosing : g = .closing ∨ g = .closingOrphan := by
    refine Stage.of_pc_handleClose (c := c) (o := k.loop) ?_
    rw [← hg.pc, view_pc_of_holds hholds, hpc]
  have honly : Only c k w ((w.setPc k.loop .idle).removeConnection c k) := by
    refine (Only.setPc (fun d hd => ?_) fun d _ => rfl).trans Only.removeConnection
    rw [hpc]
    exact beq_eq_false_iff_ne.mpr hd.symm
  have hview := view_setPc (w := w) (c := c) k.loop (p := .idle) (.inl rfl)
  by_cases hl : k.loop = 0
  · -- in the base loop, `removeConnectionInLoop` is called at once
    have hstage : g = .closing := by
      rcases hclosing with rfl | rfl
      · rfl
      · exact absurd hl (hg.remote rfl)
    subst hstage
    have hview' := view_removeConnection_zero (w := w.setPc k.loop .idle) (c := c)
      (hfit.closing rfl hl) hl
    rw [hview] at hview'
    exact h.of_only hk honly hview' hg.closeCallbackInLoop rfl rfl (Stage.fits_of_not rfl)
  · -- from an I/O loop it is queued for the base loop
    have hview' := view_removeConnection_of_ne (w := w.setPc k.loop .idle) (c := c)
      (h.server_ne_gone hk hl) hl
    rw [hview] at hview'
    rcases hclosing with rfl | rfl
    · exact h.of_only hk honly hview' (hg.closeCallback hl (.inl ⟨rfl, rfl⟩)) rfl rfl
        (Stage.fits_of_not rfl)
    · exact h.of_only hk honly hview' (hg.closeCallback hl (.inr ⟨rfl, rfl⟩)) rfl rfl
        (Stage.fits_of_orphan rfl (hfit.orphan rfl))

/-- `connectDestroyed` goes on with the assignment. -/
theorem connectDestroyed (h : w.Inv) (hk : w.conns c = some k)
    (hpc : w.pc k.loop = .connectDestroyed c) {k' : Connection}
    (hk' : ((w.setPc k.loop .idle).disconnect c k).conns c = some k') :
    (((w.setPc k.loop .idle).disconnect c k).removeChannel c k').Inv := by
  obtain ⟨g, hg, hfit⟩ := h.staged c k hk
  have hholds : (w.pc k.loop).holds c = true := by
    rw [hpc]
    exact beq_self_eq_true c
  have hstage : g = .destroying := by
    refine Stage.of_pc_connectDestroyed (c := c) (o := k.loop) ?_
    rw [← hg.pc, view_pc_of_holds hholds, hpc]
  subst hstage
  have hview := view_disconnect (w := w.setPc k.loop .idle) hk hg.index
  have hconn := (congrArg View.conn hview).symm.trans hk'
  cases hconn
  have hview' := view_removeChannel hk'
  rw [hview, view_setPc (p := .idle) k.loop (.inl rfl)] at hview'
  have honly : Only c k w (((w.setPc k.loop .idle).disconnect c k).removeChannel c
      (((k.setState .kDisConnected).setEvents Channel.kNoneEvent).setIndex .kDeleted)) := by
    have hfirst : Only c k w ((w.setPc k.loop .idle).disconnect c k) := by
      refine (Only.setPc (fun d hd => ?_) fun d _ => rfl).trans
        (Only.disconnect (w := w.setPc k.loop .idle) (h.apart hk))
      rw [hpc]
      exact beq_eq_false_iff_ne.mpr hd.symm
    refine hfirst.trans ((Only.removeChannel fun d hd k₁ hk₁ => ?_).congr rfl rfl)
    have hbefore : w.conns d = some k₁ := by
      rw [← hk₁]
      exact (congrArg View.conn (hfirst.others d hd)).symm
    exact h.apart hk d hd k₁ hbefore
  exact h.of_only hk honly hview' hg.connectDestroyed_rest rfl rfl (Stage.fits_of_not rfl)

/-! ## The functors -/

/-- A functor about a connection that is queued means that the connection is there. -/
theorem exists_of_queue (h : w.Inv) {f : Functor} {rest : List Functor}
    (hq : w.queue l = f :: rest) (hf : f.isAbout c = true) :
    ∃ k g, w.conns c = some k ∧ Valid c k (w.view c) g ∧ g.Fits k.loop w.server ∧
      g.queue c k.loop l = f :: rest.filter (Functor.isAbout c) := by
  have hview := view_queue_cons hq hf
  cases hk : w.conns c with
  | none =>
    rw [(h.absent c hk).queue] at hview
    cases hview
  | some k =>
    obtain ⟨g, hg, hfit⟩ := h.staged c k hk
    rw [hg.queue] at hview
    exact ⟨k, g, rfl, hg, hfit, hview⟩

theorem runConnectEstablished (h : w.Inv) {rest : List Functor}
    (hq : w.queue l = .connectEstablished c :: rest) :
    (({ w with queue := update w.queue l rest } : World).connectEstablished c).Inv := by
  obtain ⟨k, g, hk, hg, hfit, hgq⟩ := h.exists_of_queue hq (beq_self_eq_true c)
  obtain ⟨-, rfl, hstage⟩ | ⟨hf, -⟩ | ⟨hf, -⟩ := Stage.queue_eq_cons hgq
  · have honly : Only c k w
        (({ w with queue := update w.queue k.loop rest } : World).connectEstablished c) :=
      (Only.pop hq fun d hd => beq_eq_false_iff_ne.mpr hd.symm).trans
        (Only.connectEstablished (w := { w with queue := update w.queue k.loop rest }) hk
          (h.apart hk))
    have hpop := view_pop (c := c) hq
    have hle := (h.conn c k hk).2
    rcases hstage with ⟨rfl, hrest⟩ | ⟨rfl, hrest⟩
    · -- `connMap_` owns the connection, so the functor's pointer is not the last one
      have href : ({ w with queue := update w.queue k.loop rest } : World).referenced c = true := by
        refine referenced_of_mapped ?_
        rw [hpop, hg.mapped]
        exact Nat.one_ne_zero
      have hview := view_connectEstablished
        (w := { w with queue := update w.queue k.loop rest }) hk hg.index
      rw [href, hpop] at hview
      refine h.of_only (g := .up) hk honly hview (Valid.established (List.mem_singleton.mp hg.state)
        hg.events (hg.past.begun.mpr rfl) hg.pc (.inl rfl) (by rintro ⟨⟩) hg.mapped ?_) rfl rfl ?_
      · rw [hg.queue, hrest]
        simp [Stage.queue]
      · exact ⟨by rintro ⟨⟩, fun _ hl => absurd hl (hg.remote rfl), by rintro ⟨⟩⟩
    · -- `connectDestroyed` is queued behind, and owns the connection
      have href : ({ w with queue := update w.queue k.loop rest } : World).referenced c = true := by
        refine referenced_of_queue (f := .connectDestroyed c) hle ?_ (beq_self_eq_true c)
        rw [hpop]
        simp [hrest]
      have hview := view_connectEstablished
        (w := { w with queue := update w.queue k.loop rest }) hk hg.index
      rw [href, hpop] at hview
      refine h.of_only (g := .upOrphan) hk honly hview (Valid.established
        (List.mem_singleton.mp hg.state) hg.events (hg.past.begun.mpr rfl) hg.pc (.inr rfl)
        (fun _ => hg.remote rfl) hg.mapped ?_) rfl rfl ?_
      · rw [hg.queue, hrest]
        simp [Stage.queue]
      · exact Stage.fits_of_orphan rfl (hfit.orphan rfl)
  · cases hf
  · cases hf

theorem runRemoveConnectionInLoop (h : w.Inv) {rest : List Functor} (hfree : w.free l = true)
    (hq : w.queue l = .removeConnectionInLoop c :: rest) (hk : w.conns c = some k) :
    (({ w with queue := update w.queue l rest } : World).removeConnectionInLoop c k).Inv := by
  obtain ⟨k', g, hk', hg, hfit, hgq⟩ := h.exists_of_queue hq (beq_self_eq_true c)
  cases hk.symm.trans hk'
  obtain ⟨hf, -⟩ | ⟨-, rfl, hrest, hstage⟩ | ⟨hf, -⟩ := Stage.queue_eq_cons hgq
  · cases hf
  · have hl : k.loop ≠ 0 := by
      refine hg.remote ?_
      rcases hstage with rfl | ho
      · rfl
      · rw [Stage.remote, ho]
        rfl
    -- the base loop runs functors only as long as the server is there
    have hs : w.server = .alive := by
      have hdestructing := server_of_free hfree
      have hgone := h.server_ne_gone hk hl
      cases hs : w.server with
      | alive => rfl
      | destructing => exact absurd hs hdestructing
      | gone => exact absurd hs hgone
    -- an orphan is one of a server that is going, so the server has the connection
    have hremoving : g = .removing := by
      rcases hstage with rfl | ho
      · rfl
      · exact absurd hs (hfit.orphan ho)
    subst hremoving
    have honly : Only c k w
        (({ w with queue := update w.queue 0 rest } : World).removeConnectionInLoop c k) :=
      (Only.pop hq fun d hd => beq_eq_false_iff_ne.mpr hd.symm).trans Only.removeConnectionInLoop
    have hview := view_removeConnectionInLoop (w := { w with queue := update w.queue 0 rest })
      (c := c) (k := k) hs
    rw [view_pop hq, hrest] at hview
    exact h.of_only hk honly hview hg.removeConnectionInLoop rfl rfl (Stage.fits_of_not rfl)
  · cases hf

theorem runConnectDestroyed (h : w.Inv) {rest : List Functor} (hfree : w.free l = true)
    (hq : w.queue l = .connectDestroyed c :: rest) (hk : w.conns c = some k)
    (hstate : k.state ≠ .kDisConnecting) :
    (({ w with queue := update w.queue l rest } : World).connectDestroyed c k).Inv := by
  obtain ⟨k', g, hk', hg, hfit, hgq⟩ := h.exists_of_queue hq (beq_self_eq_true c)
  cases hk.symm.trans hk'
  obtain ⟨hf, -⟩ | ⟨hf, -⟩ | ⟨-, rfl, hrest, hstage⟩ := Stage.queue_eq_cons hgq
  · cases hf
  · cases hf
  · have hidle := pc_of_free hfree
    have honly : Only c k w
        (({ w with queue := update w.queue k.loop rest } : World).connectDestroyed c k) :=
      (Only.pop hq fun d hd => beq_eq_false_iff_ne.mpr hd.symm).trans
        (Only.connectDestroyed (w := { w with queue := update w.queue k.loop rest })
          (fun d _ => holds_of_idle hidle d) (h.apart hk))
    have hpop := view_pop (c := c) hq
    rw [hrest] at hpop
    have hclosed (hs : k.state = .kDisConnected) := view_connectDestroyed_of_ne
      (w := { w with queue := update w.queue k.loop rest }) hk (k := k) (by rw [hs]; rintro ⟨⟩)
    rw [hpop] at hclosed
    -- only a connection the peer has not closed is still registered and open
    rcases hstage with rfl | rfl | rfl | rfl
    · exact h.of_only hk honly (hclosed (List.mem_singleton.mp hg.state))
        (hg.connectDestroyed_left (.inl ⟨rfl, rfl⟩)) rfl rfl (Stage.fits_of_not rfl)
    · have hconnected : k.state = .kConnected := by
        rcases List.mem_pair.mp hg.state with hs | hs
        · exact hs
        · exact absurd hs hstate
      have hview := view_connectDestroyed_connected
        (w := { w with queue := update w.queue k.loop rest }) (c := c) hconnected
      rw [hpop] at hview
      refine h.of_only hk honly hview (hg.connectDestroyed_destroying (.inr rfl) ?_ hg.mapped) rfl
        rfl (Stage.fits_of_not rfl)
      rw [hg.queue]
      simp [Stage.queue]
    · -- the thread is not in `handleClose`
      have hpc := congrFun hg.pc k.loop
      rw [view_pc_idle hidle] at hpc
      simp [Stage.pc] at hpc
    · exact h.of_only hk honly (hclosed (List.mem_singleton.mp hg.state))
        (hg.connectDestroyed_left (.inr ⟨rfl, rfl⟩)) rfl rfl
        (Stage.fits_of_orphan rfl (hfit.orphan rfl))

/-- The loop runs its next functor. -/
theorem runFunctor (h : w.Inv) {f : Functor} {rest : List Functor} {w' : World}
    (hq : w.queue l = f :: rest) (hfree : w.free l = true) (ho : w.Orderly (.runFunctor l))
    (hw : ({ w with queue := update w.queue l rest } : World).runFunctor f = some w') : w'.Inv := by
  cases f with
  | connectEstablished c =>
    cases hw
    exact h.runConnectEstablished hq
  | shutdownInLoop c =>
    cases hw
    exact h.of_views (fun d => view_pop_of_not hq rfl) rfl rfl rfl rfl h.gone fun _ _ _ _ _ hf => hf
  | removeConnectionInLoop c =>
    obtain ⟨k, hk, rfl⟩ := Option.map_eq_some_iff.mp hw
    exact h.runRemoveConnectionInLoop hfree hq hk
  | connectDestroyed c =>
    obtain ⟨k, hk, rfl⟩ := Option.map_eq_some_iff.mp hw
    exact h.runConnectDestroyed hfree hq hk (ho c rest hq k hk)

/-! ## `shutdown()` and the pointers -/

/-- Reading `state_` and keeping or giving up a pointer change the view of no connection. -/
theorem of_pointers (h : w.Inv) (held shutdowns : List ℕ) :
    ({ w with held := held, shutdowns := shutdowns } : World).Inv :=
  h.of_views (fun _ => rfl) rfl rfl rfl rfl h.gone fun _ _ _ _ _ hf => hf

/-- `shutdown()` goes on with the assignment. -/
theorem shutdownWrite (h : w.Inv) (hk : w.conns c = some k) (hbegun : w.history c ≠ [])
    (hstate : k.state ≠ .kDisConnected) (inLoop : Bool) :
    let w' := (({ w with shutdowns := w.shutdowns.erase c } : World).note c
      (.wrote k.state .kDisConnecting)).setConn c (k.setState .kDisConnecting)
    (if inLoop then w' else w'.queueInLoop k.loop (.shutdownInLoop c)).Inv := by
  intro w'
  have hinv : w'.Inv := by
    have h₁ := h.of_pointers w.held (w.shutdowns.erase c)
    obtain ⟨g, hg, hfit⟩ := h₁.staged c k hk
    -- before `connectEstablished` nothing has been noted, and after a close the state is
    -- `kDisConnected`: in the stages between, the channel is registered
    have hadded : g.index = .kAdded := by
      have hmem := hg.state
      have hnil := hg.past.begun
      cases g with
      | joining => exact absurd (hnil.mpr rfl) hbegun
      | joiningOrphan => exact absurd (hnil.mpr rfl) hbegun
      | up => rfl
      | upOrphan => rfl
      | destroying => rfl
      | _ => exact absurd (List.mem_singleton.mp hmem) hstate
    have hview := view_setConn (w := ({ w with shutdowns := w.shutdowns.erase c } : World).note c
      (.wrote k.state .kDisConnecting)) hk (rfl : (k.setState .kDisConnecting).loop = k.loop) rfl
    rw [view_note] at hview
    exact h₁.of_only hk ((Only.note _).trans (Only.setConn _)) hview (hg.shutdownWrite hadded) rfl
      rfl
      hfit
  cases inLoop with
  | true => exact hinv
  | false =>
    exact hinv.of_views (fun d => view_queueInLoop_of_not rfl k.loop) rfl rfl rfl rfl hinv.gone
      fun _ _ _ _ _ hf => hf

/-! ## `~TcpServer` and `~TcpConnection` -/

theorem destructServer (h : w.Inv) (hfree : w.free 0 = true) :
    ({ w with server := .destructing } : World).Inv := by
  refine h.of_views (fun _ => rfl) rfl rfl rfl rfl nofun fun c k g _ hg hfit => ?_
  refine ⟨fun _ => nofun, fun _ _ => nofun, fun hclosing hl => ?_⟩
  -- the base loop is not in `handleClose`
  subst hclosing
  have hpc := congrFun hg.pc k.loop
  rw [view_pc_idle (hl.symm ▸ pc_of_free hfree)] at hpc
  simp [Stage.pc] at hpc

theorem destructEnd (h : w.Inv) (hs : w.server = .destructing) (hmap : w.connMap = [])
    (hn : w.numThreads = 0) : ({ w with server := .gone } : World).Inv := by
  refine h.of_views (fun _ => rfl) rfl rfl rfl rfl (fun _ => hn) fun c k g _ hg hfit => ?_
  refine ⟨fun _ => nofun, fun hup _ => ?_, fun hclosing hl => ?_⟩
  · -- the server has the connection
    subst hup
    have hmapped := hg.mapped
    simp [view, hmap, Stage.mapped] at hmapped
  · -- the base loop closes a connection of its own only while the server is alive
    have hserver := hfit.closing hclosing hl
    rw [hs] at hserver
    cases hserver

theorem destructNext (h : w.Inv) (hk : w.conns c = some k) (hs : w.server = .destructing)
    (hidle : w.pc 0 = .idle) (hmem : c ∈ w.connMap)
    (hstate : k.loop = 0 → k.state ≠ .kDisConnecting) : (w.destructNext c k).Inv := by
  obtain ⟨g, hg, hfit⟩ := h.staged c k hk
  have hmapped : (w.view c).mapped ≠ 0 := Nat.pos_iff_ne_zero.mp (List.count_pos_iff.mpr hmem)
  have herase := view_erase w c
  simp only [World.destructNext]
  split_ifs with hl
  · -- a connection of the base loop that the server has is `up`
    have hup : g = .up := by
      have hm := hg.mapped
      cases g with
      | joining => exact absurd hl (hg.remote rfl)
      | up => rfl
      | closing =>
        have hserver := hfit.closing rfl hl
        rw [hs] at hserver
        cases hserver
      | removing => exact absurd hl (hg.remote rfl)
      | _ => exact absurd hm hmapped
    subst hup
    have hconnected : k.state = .kConnected := by
      rcases List.mem_pair.mp hg.state with hs | hs
      · exact hs
      · exact absurd hs (hstate hl)
    have hview := view_connectDestroyed_connected
      (w := { w with connMap := w.connMap.erase c }) (c := c) hconnected
    rw [herase] at hview
    have honly : Only c k w
        (({ w with connMap := w.connMap.erase c } : World).connectDestroyed c k) :=
      Only.erase.trans (Only.connectDestroyed (w := { w with connMap := w.connMap.erase c })
        (fun d _ => holds_of_idle (hl.symm ▸ hidle) d) (h.apart hk))
    refine h.of_only hk honly hview (hg.connectDestroyed_destroying (.inl rfl) hg.queue ?_) rfl rfl
      (Stage.fits_of_not rfl)
    rw [hg.mapped]
    rfl
  · -- a connection of an I/O loop is left to the functor, which owns it from here on
    have hview := view_queueInLoop (w := { w with connMap := w.connMap.erase c })
      (f := .connectDestroyed c) (beq_self_eq_true c) k.loop
    rw [herase] at hview
    have honly : Only c k w (({ w with connMap := w.connMap.erase c } : World).queueInLoop k.loop
        (.connectDestroyed c)) :=
      Only.erase.trans (Only.queueInLoop (fun d hd => Only.isAbout_connectDestroyed hd) _)
    obtain ⟨g', ho, hg'⟩ := hg.orphan hl hmapped
    refine h.of_only hk honly hview hg' rfl rfl ⟨fun _ => ?_, fun _ hl' => absurd hl' hl,
      fun _ hl' => absurd hl' hl⟩
    rw [hs]
    exact nofun

/-- The last pointer to a connection is gone. -/
theorem destruct (h : w.Inv) (hk : w.conns c = some k) (href : w.referenced c = false) :
    (({ w with conns := update w.conns c none } : World).note c
      (.destructed k.state (w.channels k.loop k.channel.fd == some c))).Inv := by
  obtain ⟨ha, hle⟩ := h.conn c k hk
  obtain ⟨g, hg, -⟩ := h.staged c k hk
  -- in every other stage something has a pointer to it
  have hleft : g = .left := by
    by_contra hne
    rw [referenced_of_valid hg hle hne] at href
    cases href
  subst hleft
  have hreg : w.channels k.loop k.channel.fd = (w.view c).registered := by
    simp only [view, hk, Option.bind_some]
  have hconn {d : ℕ} (hd : d ≠ c) : update w.conns c none d = w.conns d :=
    Function.update_of_ne hd _ _
  have hthere {d : ℕ} {k' : Connection} (hk' : update w.conns c none d = some k') :
      d ≠ c ∧ w.conns d = some k' := by
    have hd : d ≠ c := by
      rintro rfl
      rw [Function.update_self] at hk'
      cases hk'
    exact ⟨hd, (hconn hd).symm.trans hk'⟩
  have hothers {d : ℕ} (hd : d ≠ c) :
      (({ w with conns := update w.conns c none } : World).note c
        (.destructed k.state (w.channels k.loop k.channel.fd == some c))).view d = w.view d := by
    rw [view_note_of_ne hd]
    simp only [view, hconn hd]
  refine ⟨⟨fun d k' hk' => h.conn d k' (hthere hk').2, fun d hk' => ?_, fun d e k' k'' hk' hk'' =>
    h.fd d e k' k'' (hthere hk').2 (hthere hk'').2, fun l fd d hx => ?_, h.next, h.pos, h.gone⟩,
    fun d k' hk' => ?_⟩
  · -- `c` is a connection that is not there, and its run is over
    by_cases hd : d = c
    · subst hd
      have hself : (({ w with conns := update w.conns d none } : World).note d
          (.destructed k.state (w.channels k.loop k.channel.fd == some d))).view d =
          { w.view d with
            conn := none
            registered := none
            history := (w.view d).history ++
              [.destructed k.state ((w.view d).registered == some d)] } := by
        rw [view_note, hreg]
        simp only [view, Function.update_self, Option.bind_none]
      rw [hself]
      exact hg.destruct ha
    · rw [hothers hd]
      exact h.absent d ((hconn hd).symm.trans hk')
  · -- the poller has forgotten the fd of `c`
    obtain ⟨k', hk', rfl, rfl⟩ := h.owner l fd d hx
    have hd : d ≠ c := by
      rintro rfl
      obtain rfl : k = k' := Option.some.inj (hk.symm.trans hk')
      exact Option.some_ne_none d (hx.symm.trans (hreg.trans hg.registered))
    exact ⟨k', (hconn hd).trans hk', rfl, rfl⟩
  · obtain ⟨hd, hk'⟩ := hthere hk'
    obtain ⟨g', hg', hfit'⟩ := h.staged d k' hk'
    refine ⟨g', ?_, hfit'⟩
    rw [hothers hd]
    exact hg'

end Inv

/-! ## `newConnection` -/

/-- The next loop is one of the server's, the base loop only if there is no other. -/
theorem getNextLoop_spec (hnext : w.numThreads = 0 ∨ w.next < w.numThreads) :
    w.getNextLoop.1 ≤ w.numThreads ∧
      (w.numThreads = 0 ∨ w.getNextLoop.2 < w.numThreads) := by
  rw [getNextLoop]
  split_ifs with hn hwrap
  · exact ⟨Nat.zero_le _, hnext⟩
  · exact ⟨by omega, .inr (Nat.pos_of_ne_zero hn)⟩
  · exact ⟨by omega, .inr (not_le.mp hwrap)⟩

theorem Ordered.fd_ne (h : w.Ordered) {sockfd : ℕ} (hu : w.unused sockfd = true)
    (hk : w.conns c = some k) : k.channel.fd ≠ sockfd := by
  have hmem := List.mem_range.mpr (h.conn c k hk).1.2
  have hall := List.all_eq_true.mp hu c hmem
  rw [hk] at hall
  simpa using hall

/-- The number of the next connection is new. -/
theorem Ordered.conns_next (h : w.Ordered) : w.conns w.nextConnId = none := by
  cases hk : w.conns w.nextConnId with
  | none => rfl
  | some k => exact absurd (h.conn _ k hk).1.2 (lt_irrefl _)

/-- The server has the new connection in `connMap_`, and its loop does not know of it yet. -/
def accepted (w : World) (sockfd : ℕ) : World :=
  ({ w with
    next := w.getNextLoop.2
    nextConnId := w.nextConnId + 1
    connMap := w.connMap ++ [w.nextConnId] } : World).setConn w.nextConnId
    ⟨w.getNextLoop.1, .kConnecting, ⟨sockfd, Channel.kNoneEvent, .kNew⟩⟩

theorem newConnection_eq (w : World) (sockfd : ℕ) :
    w.newConnection sockfd = if w.getNextLoop.1 = 0 then
      (w.accepted sockfd).connectEstablished w.nextConnId
    else (w.accepted sockfd).queueInLoop w.getNextLoop.1 (.connectEstablished w.nextConnId) := rfl

theorem view_accepted_of_ne {sockfd : ℕ} (hc : c ≠ w.nextConnId) :
    (w.accepted sockfd).view c = w.view c := by
  rw [accepted, view_setConn_of_ne hc]
  have hcount : (w.connMap ++ [w.nextConnId]).count c = w.connMap.count c := by
    rw [List.count_append, List.count_singleton, if_neg (by simpa using hc.symm), Nat.add_zero]
  simp only [view, hcount]

theorem Ordered.view_accepted (h : w.Ordered) {sockfd : ℕ} (hu : w.unused sockfd = true) :
    (w.accepted sockfd).view w.nextConnId =
      ⟨some ⟨w.getNextLoop.1, .kConnecting, ⟨sockfd, Channel.kNoneEvent, .kNew⟩⟩, none, fun _ => [],
        fun _ => .idle, 1, []⟩ := by
  have ha := h.absent _ h.conns_next
  -- the poller knows only the fds of connections that are there
  have hchannel (l : ℕ) : w.channels l sockfd = none := by
    cases hx : w.channels l sockfd with
    | none => rfl
    | some d =>
      obtain ⟨k, hk, -, hfd⟩ := h.owner l sockfd d hx
      exact absurd hfd (h.fd_ne hu hk)
  have hhistory : w.history w.nextConnId = [] :=
    ha.history.resolve_right fun hacc => lt_irrefl _ hacc.2
  have hcount : (w.connMap ++ [w.nextConnId]).count w.nextConnId = 1 := by
    have hzero : w.connMap.count w.nextConnId = 0 := ha.mapped
    rw [List.count_append, hzero, List.count_singleton_self]
  refine View.ext ?_ ?_ ha.queue ha.pc hcount hhistory
  · exact Function.update_self ..
  · simp only [view, World.accepted, setConn, Function.update_self, Option.bind_some, hchannel]

theorem Ordered.accepted (h : w.Ordered) {sockfd : ℕ} (hu : w.unused sockfd = true) :
    (w.accepted sockfd).Ordered := by
  obtain ⟨hloop, hnext⟩ := getNextLoop_spec h.next
  have hold {d : ℕ} (hd : d ≠ w.nextConnId) : (w.accepted sockfd).conns d = w.conns d :=
    Function.update_of_ne hd _ _
  have hnew : (w.accepted sockfd).conns w.nextConnId =
      some ⟨w.getNextLoop.1, .kConnecting, ⟨sockfd, Channel.kNoneEvent, .kNew⟩⟩ :=
    Function.update_self ..
  have hacc {d : ℕ} (hd : d ≠ w.nextConnId) :
      (w.accepted sockfd).Accepted d ↔ w.Accepted d := by
    refine and_congr_right fun _ => ⟨fun hlt => ?_, fun hlt => Nat.lt_succ_of_lt hlt⟩
    exact lt_of_le_of_ne (Nat.le_of_lt_succ hlt) hd
  refine ⟨fun d k hk => ?_, fun d hk => ?_, fun d e k k' hk hk' hfd => ?_, fun l fd d hx => ?_, hnext,
    Nat.succ_pos _, h.gone⟩
  · -- the new connection has the last number given out
    by_cases hd : d = w.nextConnId
    · subst hd
      cases hnew.symm.trans hk
      exact ⟨⟨h.pos, Nat.lt_succ_self _⟩, hloop⟩
    · rw [hacc hd]
      exact h.conn d k ((hold hd).symm.trans hk)
  · have hd : d ≠ w.nextConnId := by
      rintro rfl
      cases hnew.symm.trans hk
    have ha := h.absent d ((hold hd).symm.trans hk)
    have hview : (w.accepted sockfd).view d = w.view d := view_accepted_of_ne hd
    rw [← hview] at ha
    rwa [← hacc hd] at ha
  · -- no other connection has the new fd
    by_cases hd : d = w.nextConnId
    · by_cases he : e = w.nextConnId
      · exact hd.trans he.symm
      · subst hd
        cases hnew.symm.trans hk
        exact absurd hfd.symm (h.fd_ne hu ((hold he).symm.trans hk'))
    · by_cases he : e = w.nextConnId
      · subst he
        cases hnew.symm.trans hk'
        exact absurd hfd (h.fd_ne hu ((hold hd).symm.trans hk))
      · exact h.fd d e k k' ((hold hd).symm.trans hk) ((hold he).symm.trans hk') hfd
  · obtain ⟨k, hk, hl, hfd⟩ := h.owner l fd d hx
    have hd : d ≠ w.nextConnId := by
      rintro rfl
      cases h.conns_next.symm.trans hk
    exact ⟨k, (hold hd).trans hk, hl, hfd⟩

theorem Inv.newConnection (h : w.Inv) {sockfd : ℕ} (hs : w.server = .alive)
    (hu : w.unused sockfd = true) : (w.newConnection sockfd).Inv := by
  have hord := h.toOrdered.accepted hu
  have hview := h.toOrdered.view_accepted hu
  have hk : (w.accepted sockfd).conns w.nextConnId =
      some ⟨w.getNextLoop.1, .kConnecting, ⟨sockfd, Channel.kNoneEvent, .kNew⟩⟩ :=
    Function.update_self ..
  have hothers (d : ℕ) (hd : d ≠ w.nextConnId) : (w.accepted sockfd).Staged d := by
    intro k hk
    obtain ⟨g, hg, hfit⟩ := h.staged d k ((Function.update_of_ne hd _ _).symm.trans hk)
    refine ⟨g, ?_, hfit⟩
    rw [view_accepted_of_ne hd]
    exact hg
  rw [newConnection_eq]
  split_ifs with hl
  · -- in the base loop, `connectEstablished` is called at once
    have href : (w.accepted sockfd).referenced w.nextConnId = true := by
      refine referenced_of_mapped ?_
      rw [hview]
      exact Nat.one_ne_zero
    have hview' := view_connectEstablished hk rfl
    rw [href, hview] at hview'
    refine hord.inv_of_only (g := .up) hothers hk (Only.connectEstablished hk (hord.apart hk)) hview'
      (Valid.established (q := fun _ => []) rfl rfl rfl rfl (.inl rfl) nofun rfl rfl) rfl rfl ?_
    refine ⟨nofun, fun _ _ hgone => ?_, nofun⟩
    cases hs.symm.trans hgone
  · -- an I/O loop gets it as a functor, and until that runs the connection is `joining`
    have hview' := view_queueInLoop (w := w.accepted sockfd) (c := w.nextConnId)
      (f := .connectEstablished w.nextConnId) (beq_self_eq_true _) w.getNextLoop.1
    rw [hview] at hview'
    refine hord.inv_of_only (g := .joining) hothers hk
      (Only.queueInLoop (fun d hd => beq_eq_false_iff_ne.mpr hd.symm) _) hview' ?_ rfl rfl
      (Stage.fits_of_not rfl)
    refine ⟨rfl, List.mem_cons_self, rfl, rfl, fun _ => hl, rfl, rfl, rfl, rfl, ?_, ?_,
      Runs.justified_nil⟩
    · simp [Stage.begun]
    · simp [Stage.destroyed]

end World

end Net

end Muduo
