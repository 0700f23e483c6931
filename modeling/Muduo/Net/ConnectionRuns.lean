import Muduo.Net.ConnectionSteps

/-! # The life of every connection in every run

**`World.connection_life`**: in a run of the server, whatever its interleaving, every connection's
history is lawful and every connection that nothing is queued for and no one works on has run
`connectDestroyed` once, if and only if every step of the run is orderly: `connectDestroyed` never
finds a connection `kDisConnecting`, and no `shutdown()` that has read `kConnected` finds it
`kDisConnected` when it writes. -/

namespace Muduo

namespace Net

namespace World

open Function (update)

variable {w w' w'' : World} {c : ℕ} {k : Connection}

/-! ## What a step can be -/

/-- The steps from `w`, with what each one needs. -/
inductive Steps (w : World) : Action → World → Prop
  | newConnection {sockfd : ℕ} (hs : w.server = .alive) (hfree : w.free 0 = true)
    (hu : w.unused sockfd = true) : Steps w (.newConnection sockfd) (w.newConnection sockfd)
  | runFunctor {l : ℕ} {f : Functor} {rest : List Functor} {w' : World} (hq : w.queue l = f :: rest)
    (hfree : w.free l = true)
    (hw : ({ w with queue := update w.queue l rest } : World).runFunctor f = some w') :
    Steps w (.runFunctor l) w'
  | handleClose {c : ℕ} {k : Connection} (hk : w.conns c = some k) (hfree : w.free k.loop = true)
    (hi : k.channel.index = .kAdded) :
    Steps w (.handleClose c) ((w.disconnect c k).setPc k.loop (.handleClose c))
  | closeCallback {c : ℕ} {k : Connection} (hk : w.conns c = some k)
    (hpc : w.pc k.loop = .handleClose c) :
    Steps w (.closeCallback c) ((w.setPc k.loop .idle).removeConnection c k)
  | connectDestroyed {c : ℕ} {k k' : Connection} (hk : w.conns c = some k)
    (hpc : w.pc k.loop = .connectDestroyed c)
    (hk' : ((w.setPc k.loop .idle).disconnect c k).conns c = some k') :
    Steps w (.connectDestroyed c) (((w.setPc k.loop .idle).disconnect c k).removeChannel c k')
  | shutdown {c : ℕ} {k : Connection} (hk : w.conns c = some k) (hs : k.state = .kConnected) :
    Steps w (.shutdown c) { w with shutdowns := c :: w.shutdowns }
  | shutdownNot {c : ℕ} : Steps w (.shutdown c) w
  | shutdownWrite {c : ℕ} {inLoop : Bool} {k : Connection} (hk : w.conns c = some k)
    (hc : c ∈ w.shutdowns) : Steps w (.shutdownWrite c inLoop)
      (let w' := (({ w with shutdowns := w.shutdowns.erase c } : World).note c
        (.wrote k.state .kDisConnecting)).setConn c (k.setState .kDisConnecting)
      if inLoop then w' else w'.queueInLoop k.loop (.shutdownInLoop c))
  | destructServer (hs : w.server = .alive) (hfree : w.free 0 = true) :
    Steps w .destructServer { w with server := .destructing }
  | destructNext {c : ℕ} {k : Connection} (hk : w.conns c = some k) (hs : w.server = .destructing)
    (hidle : w.pc 0 = .idle) (hmem : c ∈ w.connMap) :
    Steps w (.destructNext c) (w.destructNext c k)
  | destructEnd (hs : w.server = .destructing) (hmap : w.connMap = []) (hn : w.numThreads = 0) :
    Steps w .destructEnd { w with server := .gone }
  | hold {c : ℕ} : Steps w (.hold c) { w with held := c :: w.held }
  | release {c : ℕ} : Steps w (.release c) { w with held := w.held.erase c }
  | destruct {c : ℕ} {k : Connection} (hk : w.conns c = some k) (href : w.referenced c = false) :
    Steps w (.destruct c) (({ w with conns := update w.conns c none } : World).note c
      (.destructed k.state (w.channels k.loop k.channel.fd == some c)))

theorem steps_of_step {a : Action} (h : w.step a = some w') : w.Steps a w' := by
  cases a with
  | newConnection sockfd =>
    simp only [step, Option.ite_none_right_eq_some, Option.some.injEq] at h
    obtain ⟨⟨hs, hfree, hu⟩, rfl⟩ := h
    exact .newConnection hs hfree hu
  | runFunctor l =>
    simp only [step] at h
    cases hq : w.queue l with
    | nil =>
      rw [hq] at h
      cases h
    | cons f rest =>
      rw [hq] at h
      simp only [Option.ite_none_right_eq_some] at h
      exact .runFunctor hq h.1 h.2
  | handleClose c =>
    simp only [step, Option.bind_eq_some_iff, Option.ite_none_right_eq_some, Option.some.injEq] at h
    obtain ⟨k, hk, ⟨hfree, -, hi⟩, rfl⟩ := h
    exact .handleClose hk hfree hi
  | closeCallback c =>
    simp only [step, Option.bind_eq_some_iff, Option.ite_none_right_eq_some, Option.some.injEq] at h
    obtain ⟨k, hk, hpc, rfl⟩ := h
    exact .closeCallback hk hpc
  | connectDestroyed c =>
    simp only [step, Option.bind_eq_some_iff, Option.ite_none_right_eq_some,
      Option.map_eq_some_iff] at h
    obtain ⟨k, hk, hpc, k', hk', rfl⟩ := h
    exact .connectDestroyed hk hpc hk'
  | shutdown c =>
    simp only [step, Option.bind_eq_some_iff, Option.ite_none_right_eq_some, Option.some.injEq] at h
    obtain ⟨k, hk, -, rfl⟩ := h
    split_ifs with hs
    · exact .shutdown hk hs
    · exact .shutdownNot
  | shutdownWrite c inLoop =>
    simp only [step, Option.bind_eq_some_iff, Option.ite_none_right_eq_some, Option.some.injEq] at h
    obtain ⟨k, hk, hc, rfl⟩ := h
    exact .shutdownWrite hk hc
  | destructServer =>
    simp only [step, Option.ite_none_right_eq_some, Option.some.injEq] at h
    obtain ⟨⟨hs, hfree⟩, rfl⟩ := h
    exact .destructServer hs hfree
  | destructNext c =>
    simp only [step, Option.bind_eq_some_iff, Option.ite_none_right_eq_some, Option.some.injEq] at h
    obtain ⟨k, hk, ⟨hs, hidle, hmem⟩, rfl⟩ := h
    exact .destructNext hk hs hidle hmem
  | destructEnd =>
    simp only [step, Option.ite_none_right_eq_some, Option.some.injEq] at h
    obtain ⟨⟨hs, -, hmap, hn⟩, rfl⟩ := h
    exact .destructEnd hs hmap hn
  | hold c =>
    simp only [step, Option.ite_none_right_eq_some, Option.some.injEq] at h
    obtain ⟨-, rfl⟩ := h
    exact .hold
  | release c =>
    simp only [step, Option.ite_none_right_eq_some, Option.some.injEq] at h
    obtain ⟨-, rfl⟩ := h
    exact .release
  | destruct c =>
    simp only [step, Option.bind_eq_some_iff, Option.ite_none_left_eq_some, Option.some.injEq] at h
    obtain ⟨k, hk, href, rfl⟩ := h
    exact .destruct hk (Bool.eq_false_iff.mpr href)

/-! ## Histories only grow -/

/-- Nothing is forgotten from `w` to `w'`, and no `shutdown()` has read `state_`. -/
structure Extends (w w' : World) : Prop where
  history : ∀ c, w.history c <+: w'.history c
  shutdowns : w'.shutdowns = w.shutdowns

namespace Extends

theorem of_eq (hh : w'.history = w.history) (hs : w'.shutdowns = w.shutdowns) : Extends w w' := by
  refine ⟨fun c => ?_, hs⟩
  rw [hh]

theorem trans (h : Extends w w') (h' : Extends w' w'') : Extends w w'' :=
  ⟨fun c => (h.history c).trans (h'.history c), h'.shutdowns.trans h.shutdowns⟩

theorem note (w : World) (c : ℕ) (e : Event) : Extends w (w.note c e) := by
  refine ⟨fun d => ?_, rfl⟩
  by_cases hd : d = c
  · subst hd
    simp only [World.note, Function.update_self]
    exact List.prefix_append _ _
  · simp only [World.note, Function.update_of_ne hd]
    exact List.prefix_rfl

theorem updateChannel (w : World) (c : ℕ) (k : Connection) : Extends w (w.updateChannel c k) := by
  rw [World.updateChannel]
  cases k.channel.index <;> exact of_eq rfl rfl

theorem removeChannel (w : World) (c : ℕ) (k : Connection) : Extends w (w.removeChannel c k) :=
  (note w c _).trans (of_eq rfl rfl)

theorem disconnect (w : World) (c : ℕ) (k : Connection) : Extends w (w.disconnect c k) :=
  (note w c _).trans (updateChannel _ c _)

theorem connectEstablished (w : World) (c : ℕ) : Extends w (w.connectEstablished c) := by
  rw [World.connectEstablished]
  cases w.conns c with
  | none => exact note w c _
  | some k => exact ((note w c _).trans (note _ c _)).trans (updateChannel _ c _)

theorem connectDestroyed (w : World) (c : ℕ) (k : Connection) :
    Extends w (w.connectDestroyed c k) := by
  simp only [World.connectDestroyed]
  split_ifs
  · exact (note w c _).trans (of_eq rfl rfl)
  · exact (note w c _).trans (removeChannel _ c k)

theorem removeConnectionInLoop (w : World) (c : ℕ) (k : Connection) :
    Extends w (w.removeConnectionInLoop c k) := by
  simp only [World.removeConnectionInLoop]
  split_ifs
  · exact (note w c _).trans (of_eq rfl rfl)
  · exact note w c _

theorem removeConnection (w : World) (c : ℕ) (k : Connection) :
    Extends w (w.removeConnection c k) := by
  simp only [World.removeConnection]
  split_ifs
  · exact note w c _
  · exact (note w c _).trans (removeConnectionInLoop _ c k)
  · exact (note w c _).trans (of_eq rfl rfl)

theorem runFunctor {f : Functor} (h : w.runFunctor f = some w') : Extends w w' := by
  cases f with
  | connectEstablished c =>
    cases h
    exact connectEstablished w c
  | shutdownInLoop c =>
    cases h
    exact of_eq rfl rfl
  | removeConnectionInLoop c =>
    obtain ⟨k, -, rfl⟩ := Option.map_eq_some_iff.mp h
    exact removeConnectionInLoop w c k
  | connectDestroyed c =>
    obtain ⟨k, -, rfl⟩ := Option.map_eq_some_iff.mp h
    exact connectDestroyed w c k

theorem newConnection (w : World) (sockfd : ℕ) : Extends w (w.newConnection sockfd) := by
  have haccepted : Extends w (w.accepted sockfd) := of_eq rfl rfl
  rw [newConnection_eq]
  split_ifs
  · exact haccepted.trans (connectEstablished _ _)
  · exact haccepted.trans (of_eq rfl rfl)

theorem destructNext (w : World) (c : ℕ) (k : Connection) : Extends w (w.destructNext c k) := by
  have herase : Extends w { w with connMap := w.connMap.erase c } := of_eq rfl rfl
  simp only [World.destructNext]
  split_ifs
  · exact herase.trans (connectDestroyed _ c k)
  · exact herase.trans (of_eq rfl rfl)

end Extends

/-- **A step forgets nothing, and only a `shutdown()` that has read `kConnected` is new.** -/
theorem Steps.extends {a : Action} (h : w.Steps a w') :
    (∀ c, w.history c <+: w'.history c) ∧
      ∀ c ∈ w'.shutdowns, c ∈ w.shutdowns ∨ ∃ k, w.conns c = some k ∧ k.state = .kConnected := by
  have hold (he : Extends w w') : (∀ c, w.history c <+: w'.history c) ∧
      ∀ c ∈ w'.shutdowns, c ∈ w.shutdowns ∨ ∃ k, w.conns c = some k ∧ k.state = .kConnected :=
    ⟨he.history, fun c hc => .inl (he.shutdowns ▸ hc)⟩
  cases h with
  | newConnection => exact hold (.newConnection w _)
  | @runFunctor l f rest w' hq hfree hw =>
    have hpop : Extends w { w with queue := update w.queue l rest } := .of_eq rfl rfl
    exact hold (hpop.trans (.runFunctor hw))
  | handleClose => exact hold ((Extends.disconnect w _ _).trans (.of_eq rfl rfl))
  | @closeCallback c k =>
    have hidle : Extends w (w.setPc k.loop .idle) := .of_eq rfl rfl
    exact hold (hidle.trans (.removeConnection _ _ _))
  | @connectDestroyed c k k' =>
    have hidle : Extends w (w.setPc k.loop .idle) := .of_eq rfl rfl
    exact hold ((hidle.trans (.disconnect _ _ _)).trans (.removeChannel _ _ _))
  | shutdown hk hs =>
    refine ⟨fun _ => List.prefix_rfl, fun c hc => ?_⟩
    rcases List.mem_cons.mp hc with rfl | hc
    · exact .inr ⟨_, hk, hs⟩
    · exact .inl hc
  | shutdownNot => exact hold (.of_eq rfl rfl)
  | @shutdownWrite c inLoop k hk hc =>
    -- one `shutdown()` fewer
    have hnote := Extends.note { w with shutdowns := w.shutdowns.erase c } c
      (.wrote k.state .kDisConnecting)
    cases inLoop with
    | true => exact ⟨hnote.history, fun d hd => .inl (List.mem_of_mem_erase hd)⟩
    | false => exact ⟨hnote.history, fun d hd => .inl (List.mem_of_mem_erase hd)⟩
  | destructServer => exact hold (.of_eq rfl rfl)
  | destructNext => exact hold (.destructNext w _ _)
  | destructEnd => exact hold (.of_eq rfl rfl)
  | hold => exact hold (.of_eq rfl rfl)
  | release => exact hold (.of_eq rfl rfl)
  | @destruct c k =>
    have hfree : Extends w { w with conns := update w.conns c none } := .of_eq rfl rfl
    exact hold (hfree.trans (.note _ _ _))

/-! ## Runs -/

/-- The invariant, and whatever has read `kConnected` read it of a connection that was
established. -/
structure Sound (w : World) : Prop extends Inv w where
  shutdowns : ∀ c ∈ w.shutdowns, w.history c ≠ []

theorem sound_new (numThreads : ℕ) : (new numThreads).Sound where
  toInv := inv_new numThreads
  shutdowns := nofun

/-- **An orderly step keeps the invariant.** -/
theorem Inv.step {a : Action} (h : w.Inv) (hb : ∀ c ∈ w.shutdowns, w.history c ≠ [])
    (ho : w.Orderly a) (hs : w.Steps a w') : w'.Inv := by
  cases hs with
  | newConnection hs hfree hu => exact h.newConnection hs hu
  | runFunctor hq hfree hw => exact h.runFunctor hq hfree ho hw
  | handleClose hk hfree hi => exact h.handleClose hk hfree hi
  | closeCallback hk hpc => exact h.closeCallback hk hpc
  | connectDestroyed hk hpc hk' => exact h.connectDestroyed hk hpc hk'
  | shutdown hk hs => exact h.of_pointers _ _
  | shutdownNot => exact h
  | shutdownWrite hk hc => exact h.shutdownWrite hk (hb _ hc) (ho _ hk) _
  | destructServer hs hfree => exact h.destructServer hfree
  | destructNext hk hs hidle hmem => exact h.destructNext hk hs hidle hmem (ho _ hk)
  | destructEnd hs hmap hn => exact h.destructEnd hs hmap hn
  | hold => exact h.of_pointers _ _
  | release => exact h.of_pointers _ _
  | destruct hk href => exact h.destruct hk href

/-- A connection that is `kConnected` has a past. -/
theorem Inv.history_ne_nil (h : w.Inv) (hk : w.conns c = some k) (hs : k.state = .kConnected) :
    w.history c ≠ [] := by
  obtain ⟨g, hg, -⟩ := h.staged c k hk
  refine hg.past.ne_nil ?_
  have hmem := hg.state
  rw [hs] at hmem
  cases g <;> simp [Stage.states, Stage.begun] at hmem ⊢

theorem Sound.step {a : Action} (h : w.Sound) (ho : w.Orderly a) (hs : w.step a = some w') :
    w'.Sound := by
  have hsteps := steps_of_step hs
  obtain ⟨hhistory, hshutdowns⟩ := hsteps.extends
  refine ⟨h.toInv.step h.shutdowns ho hsteps, fun c hc => ?_⟩
  have hbefore : w.history c ≠ [] := by
    rcases hshutdowns c hc with hc | ⟨k, hk, hstate⟩
    · exact h.shutdowns c hc
    · exact h.history_ne_nil hk hstate
  obtain ⟨more, hmore⟩ := hhistory c
  rw [← hmore]
  exact List.append_ne_nil_of_left_ne_nil hbefore more

theorem exec_sound {numThreads : ℕ} {as : List Action}
    (hg : Runs.Guarded step Orderly (new numThreads) as)
    (h : Runs.exec step (new numThreads) as = some w) : w.Sound :=
  Runs.exec_invariant (sound_new numThreads) (fun _ _ _ hs ho h => hs.step ho h) hg h

/-! ## A step that is not orderly -/

/-- A `kDisConnecting` connection that `connectDestroyed` finds still has events of interest. -/
theorem not_lawful_connectDestroyed (hk : w.conns c = some k) (hs : k.state = .kDisConnecting)
    (he : k.channel.events = Channel.kReadEvent) :
    ¬ Runs.Justified LawfulLife ((w.connectDestroyed c k).history c) := by
  have hne : k.state ≠ .kConnected := by
    rw [hs]
    exact nofun
  have hhistory := congrArg View.history (view_connectDestroyed_of_ne hk hne)
  have hnone : k.channel.isNoneEvent = false := by
    rw [Channel.isNoneEvent, he]
    rfl
  rw [hnone] at hhistory
  change ((w.connectDestroyed c k).history c) = _ at hhistory
  rw [hhistory]
  intro h
  obtain ⟨-, -, -, hassert⟩ := h.last
  cases hassert

theorem Inv.events_of_kDisConnecting (h : w.Inv) (hk : w.conns c = some k)
    (hs : k.state = .kDisConnecting) : k.channel.events = Channel.kReadEvent := by
  obtain ⟨g, hg, -⟩ := h.staged c k hk
  rw [hg.events]
  have hmem := hg.state
  rw [hs] at hmem
  cases g <;> simp [Stage.states, Stage.events, Stage.index] at hmem ⊢

/-- **A step that is not orderly spoils a history.** -/
theorem Inv.not_lawful {a : Action} (h : w.Inv) (ho : ¬ w.Orderly a) (hs : w.Steps a w') :
    ∃ c, ¬ Runs.Justified LawfulLife (w'.history c) := by
  cases hs with
  | @runFunctor l f rest w' hq hfree hw =>
    simp only [Orderly, not_forall, not_not] at ho
    obtain ⟨c, rest', hq', k, hk, hstate⟩ := ho
    rw [hq] at hq'
    cases hq'
    have hw' : some _ = some w' := (congrArg (Option.map _) hk).symm.trans hw
    cases hw'
    exact ⟨c, not_lawful_connectDestroyed (w := { w with queue := update w.queue l rest }) hk hstate
      (h.events_of_kDisConnecting hk hstate)⟩
  | @shutdownWrite c inLoop k hk hc =>
    simp only [Orderly, not_forall, not_not] at ho
    obtain ⟨k', hk', hstate⟩ := ho
    cases hk.symm.trans hk'
    refine ⟨c, ?_⟩
    have hback : ¬ LawfulLife (w.history c) (.wrote k.state .kDisConnecting) := by
      rw [hstate]
      rintro ⟨-, hrank⟩
      exact absurd hrank (by decide)
    have hself : update w.history c (w.history c ++ [.wrote k.state .kDisConnecting]) c =
        w.history c ++ [.wrote k.state .kDisConnecting] :=
      Function.update_self ..
    cases inLoop with
    | true => exact fun h => hback (hself ▸ h : Runs.Justified LawfulLife _).last
    | false => exact fun h => hback (hself ▸ h : Runs.Justified LawfulLife _).last
  | @destructNext c k hk hs hidle hmem =>
    simp only [Orderly, not_forall, not_not] at ho
    obtain ⟨k', hk', hl, hstate⟩ := ho
    cases hk.symm.trans hk'
    refine ⟨c, ?_⟩
    simp only [World.destructNext, if_pos hl]
    exact not_lawful_connectDestroyed (w := { w with connMap := w.connMap.erase c }) hk hstate
      (h.events_of_kDisConnecting hk hstate)
  | _ => exact absurd trivial ho

theorem guarded_of_lawful {numThreads : ℕ} {as : List Action}
    (h : Runs.exec step (new numThreads) as = some w)
    (hlawful : ∀ c, Runs.Justified LawfulLife (w.history c)) :
    Runs.Guarded step Orderly (new numThreads) as := by
  induction as using List.reverseRecOn generalizing w with
  | nil => exact Runs.guarded_nil
  | append_singleton as a ih =>
    obtain ⟨t, ht, hlast⟩ := Runs.exec_concat_eq_some.mp h
    have hsteps := steps_of_step hlast
    have hg := ih ht fun c => (hlawful c).mono (hsteps.extends.1 c)
    refine hg.concat fun u hu => ?_
    cases ht.symm.trans hu
    by_contra ho
    obtain ⟨c, hc⟩ := (exec_sound hg ht).toInv.not_lawful ho hsteps
    exact hc (hlawful c)

/-! ## The life of a connection -/

/-- The server does not have `c`, nothing is queued for it, and no thread is in its member
functions. -/
def Settled (w : World) (c : ℕ) : Prop :=
  c ∉ w.connMap ∧ (∀ l, ∀ f ∈ w.queue l, f.isAbout c = false) ∧ ∀ l, (w.pc l).holds c = false

/-- A connection that is left alone has run `connectDestroyed`. -/
theorem Inv.destroyed_of_settled (h : w.Inv) (ha : w.Accepted c) (hs : w.Settled c) :
    .connectDestroyed ∈ w.history c := by
  obtain ⟨hmap, hqueue, hpc⟩ := hs
  cases hk : w.conns c with
  | none => exact (h.absent c hk).destroyed ha
  | some k =>
    obtain ⟨g, hg, -⟩ := h.staged c k hk
    have hmapped : g.mapped = 0 := by
      rw [← hg.mapped]
      exact List.count_eq_zero.mpr hmap
    have hq (l : ℕ) : g.queue c k.loop l = [] := by
      rw [← hg.queue]
      exact List.filter_eq_nil_iff.mpr fun f hf => by simp [hqueue l f hf]
    have hp : g.pc c k.loop k.loop = .idle := by
      rw [← hg.pc]
      simp [view, hpc]
    have hown := hq k.loop
    have hbase := hq 0
    refine hg.past.destroyed.mpr ?_
    cases g <;>
      simp [Stage.mapped, Stage.queue, Stage.pc, Stage.destroyed] at hmapped hown hbase hp ⊢

theorem count_connectDestroyed {log : List Event} (h : Runs.Justified LawfulLife log)
    (hmem : .connectDestroyed ∈ log) : log.count .connectDestroyed = 1 := by
  refine le_antisymm ?_ (List.count_pos_iff.mpr hmem)
  refine Runs.Justified.countP_le_one (p := (· == Event.connectDestroyed))
    fun done e hd he b hb => ?_
  have hlast := h done e hd
  rw [beq_iff_eq] at he
  subst he
  refine beq_eq_false_iff_ne.mpr ?_
  rintro rfl
  exact hlast.2 hb

/-- **Every connection's life is lawful and complete, if and only if every step is orderly.** -/
theorem connection_life {numThreads : ℕ} {as : List Action}
    (h : Runs.exec step (new numThreads) as = some w) :
    Runs.Guarded step Orderly (new numThreads) as ↔
      (∀ c, Runs.Justified LawfulLife (w.history c)) ∧
        ∀ c, w.Accepted c → w.Settled c → (w.history c).count .connectDestroyed = 1 := by
  refine ⟨fun hg => ?_, fun hlife => guarded_of_lawful h hlife.1⟩
  have hinv := (exec_sound hg h).toInv
  have hlawful (c : ℕ) : Runs.Justified LawfulLife (w.history c) := by
    cases hk : w.conns c with
    | none => exact (hinv.absent c hk).lawful
    | some k =>
      obtain ⟨g, hg, -⟩ := hinv.staged c k hk
      exact hg.past.lawful
  exact ⟨hlawful, fun c ha hs =>
    count_connectDestroyed (hlawful c) (hinv.destroyed_of_settled ha hs)⟩

/-- Two connections of an I/O loop with the same fd: one is closed by its peer, the other by
`~TcpServer`. -/
def twoLives : List Action :=
  [.newConnection 7, .runFunctor 1, .handleClose 1, .closeCallback 1, .runFunctor 0, .runFunctor 1,
    .destruct 1, .newConnection 7, .runFunctor 1, .destructServer, .destructNext 2, .runFunctor 1,
    .connectDestroyed 2, .destruct 2]

/-- The theorem at work: every step of the run is orderly, so both lives are lawful and complete. -/
theorem connection_life_two :
    ∃ w, Runs.exec step (new 1) twoLives = some w ∧
      (∀ c, Runs.Justified LawfulLife (w.history c)) ∧
      ∀ c, w.Accepted c → w.Settled c → (w.history c).count .connectDestroyed = 1 := by
  have hsome : (Runs.exec step (new 1) twoLives).isSome = true := by decide +kernel
  obtain ⟨w, hw⟩ := Option.isSome_iff_exists.mp hsome
  exact ⟨w, hw, (connection_life hw).mp (by decide +kernel)⟩

/-- A connection of the base loop that is shut down, and then `~TcpServer`: `connectDestroyed`
removes a channel that still has an event of interest. -/
theorem not_connection_life :
    ¬ ∀ (numThreads : ℕ) (as : List Action) (w : World),
      Runs.exec step (new numThreads) as = some w →
      (∀ c, Runs.Justified LawfulLife (w.history c)) ∧
        ∀ c, w.Accepted c → w.Settled c → (w.history c).count .connectDestroyed = 1 := by
  intro h
  have hrun : (Runs.exec step (new 0) [.newConnection 7, .shutdown 1, .shutdownWrite 1 true,
      .destructServer, .destructNext 1]).map (fun w => w.history 1) =
      some [.connectEstablished true, .wrote .kConnecting .kConnected,
        .wrote .kConnected .kDisConnecting, .connectDestroyed, .removeChannel true true false] := by
    decide +kernel
  obtain ⟨w, hw, hhistory⟩ := Option.map_eq_some_iff.mp hrun
  have hlawful := (h 0 _ w hw).1 1
  rw [hhistory] at hlawful
  obtain ⟨-, -, -, hassert⟩ := hlawful [.connectEstablished true, .wrote .kConnecting .kConnected,
    .wrote .kConnected .kDisConnecting, .connectDestroyed] _ List.prefix_rfl
  cases hassert

end World

end Net

end Muduo
