import Muduo.Net.ConnectionStage

/-! # Every connection stays in a stage

`World.Inv` says that every connection is in a stage that goes with the phase of the server, and
that the pollers and the fds are in order. An operation on one connection that leads it from one
stage to another keeps the invariant (`Inv.of_only`), so each action is a matter of the one
connection it is about. -/

namespace Muduo

namespace Net

namespace World

open Function (update)

/-- A connection with this number was accepted. -/
def Accepted (w : World) (c : ℕ) : Prop := 0 < c ∧ c < w.nextConnId

/-- The pollers, the fds and the loops are in order, and nothing is about a connection that is not
there. -/
structure Ordered (w : World) : Prop where
  conn : ∀ c k, w.conns c = some k → w.Accepted c ∧ k.loop ≤ w.numThreads
  absent : ∀ c, w.conns c = none → Absent (w.view c) (w.Accepted c)
  /-- Open sockets have different fds. -/
  fd : ∀ c d k k', w.conns c = some k → w.conns d = some k' → k.channel.fd = k'.channel.fd → c = d
  /-- A poller only has channels of connections of its loop. -/
  owner : ∀ l fd c, w.channels l fd = some c →
    ∃ k, w.conns c = some k ∧ k.loop = l ∧ k.channel.fd = fd
  next : w.numThreads = 0 ∨ w.next < w.numThreads
  pos : 0 < w.nextConnId
  /-- The destructor of a server with I/O loops does not return. -/
  gone : w.server = .gone → w.numThreads = 0

/-- The connection `c` is in a stage that goes with the phase of the server. -/
def Staged (w : World) (c : ℕ) : Prop :=
  ∀ k, w.conns c = some k → ∃ g, Valid c k (w.view c) g ∧ g.Fits k.loop w.server

/-- The invariant. -/
structure Inv (w : World) : Prop extends Ordered w where
  staged : ∀ c, w.Staged c

theorem inv_new (numThreads : ℕ) : (new numThreads).Inv where
  conn := nofun
  absent c _ := by
    refine ⟨rfl, rfl, rfl, rfl, .inl rfl, fun ha => ?_, Runs.justified_nil⟩
    exact absurd ha.2 (not_lt.mpr ha.1)
  fd := nofun
  owner := nofun
  next := Nat.eq_zero_or_pos numThreads
  pos := Nat.one_pos
  gone := nofun
  staged := nofun

variable {w w' : World}

theorem Ordered.apart (h : w.Ordered) {d : ℕ} {k : Connection} (hk : w.conns d = some k) :
    w.Apart d k :=
  fun c hc k' hk' hfd => hc (h.fd c d k' k hk' hk hfd)

/-- **An operation on one connection that leads it to a stage keeps the invariant.** -/
theorem Ordered.inv_of_only {d : ℕ} {k k' : Connection} {v : View} {g : Stage} (h : w.Ordered)
    (hothers : ∀ c, c ≠ d → w.Staged c) (hk : w.conns d = some k) (ho : Only d k w w')
    (hview : w'.view d = v) (hv : Valid d k' v g) (hl : k'.loop = k.loop)
    (hfd : k'.channel.fd = k.channel.fd) (hf : g.Fits k'.loop w.server) : w'.Inv := by
  subst hview
  have hself : w'.conns d = some k' := hv.conn
  have hstatic := ho.static
  simp only [static, Prod.mk.injEq] at hstatic
  obtain ⟨hnum, hnext, hid, hserver⟩ := hstatic
  have hacc (c : ℕ) : w'.Accepted c ↔ w.Accepted c := by rw [Accepted, Accepted, hid]
  have hconns {c : ℕ} (hc : c ≠ d) : w'.conns c = w.conns c := congrArg View.conn (ho.others c hc)
  -- every connection was there before, at the same loop and fd
  have hbefore {c : ℕ} {k₁ : Connection} (h₁ : w'.conns c = some k₁) :
      ∃ k₀, w.conns c = some k₀ ∧ k₀.loop = k₁.loop ∧ k₀.channel.fd = k₁.channel.fd := by
    by_cases hc : c = d
    · subst hc
      rw [hself] at h₁
      cases h₁
      exact ⟨k, hk, hl.symm, hfd.symm⟩
    · exact ⟨k₁, (hconns hc).symm.trans h₁, rfl, rfl⟩
  have hafter {c : ℕ} {k₀ : Connection} (h₀ : w.conns c = some k₀) :
      ∃ k₁, w'.conns c = some k₁ ∧ k₁.loop = k₀.loop ∧ k₁.channel.fd = k₀.channel.fd := by
    by_cases hc : c = d
    · subst hc
      rw [hk] at h₀
      cases h₀
      exact ⟨k', hself, hl, hfd⟩
    · exact ⟨k₀, (hconns hc).trans h₀, rfl, rfl⟩
  refine ⟨⟨fun c k₁ h₁ => ?_, fun c h₁ => ?_, fun c e k₁ k₂ h₁ h₂ heq => ?_, fun l fd c hx => ?_, ?_,
    ?_, ?_⟩, fun c k₁ h₁ => ?_⟩
  · obtain ⟨k₀, h₀, hloop, -⟩ := hbefore h₁
    rw [hacc, hnum, ← hloop]
    exact h.conn c k₀ h₀
  · have hc : c ≠ d := by
      rintro rfl
      rw [hself] at h₁
      cases h₁
    rw [ho.others c hc]
    have ha := h.absent c ((hconns hc).symm.trans h₁)
    rwa [← hacc] at ha
  · obtain ⟨k₃, h₃, -, hfd₃⟩ := hbefore h₁
    obtain ⟨k₄, h₄, -, hfd₄⟩ := hbefore h₂
    exact h.fd c e k₃ k₄ h₃ h₄ (hfd₃.trans (heq.trans hfd₄.symm))
  · rcases ho.channels l fd with hsame | ⟨rfl, rfl, hnone | hsome⟩
    · rw [hsame] at hx
      obtain ⟨k₀, h₀, rfl, rfl⟩ := h.owner l fd c hx
      exact hafter h₀
    · rw [hnone] at hx
      cases hx
    · rw [hsome] at hx
      cases hx
      exact ⟨k', hself, hl, hfd⟩
  · rw [hnum, hnext]
    exact h.next
  · rw [hid]
    exact h.pos
  · rw [hnum, hserver]
    exact h.gone
  · by_cases hc : c = d
    · subst hc
      rw [hself] at h₁
      cases h₁
      exact ⟨g, hv, hserver ▸ hf⟩
    · rw [ho.others c hc, hserver]
      exact hothers c hc k₁ ((hconns hc).symm.trans h₁)

theorem Inv.of_only {d : ℕ} {k k' : Connection} {v : View} {g : Stage} (h : w.Inv)
    (hk : w.conns d = some k) (ho : Only d k w w') (hview : w'.view d = v) (hv : Valid d k' v g)
    (hl : k'.loop = k.loop) (hfd : k'.channel.fd = k.channel.fd) (hf : g.Fits k'.loop w.server) :
    w'.Inv :=
  h.toOrdered.inv_of_only (fun c _ => h.staged c) hk ho hview hv hl hfd hf

/-- What changes the view of no connection keeps the invariant, if the stages go with the phase the
server is in afterwards. -/
theorem Inv.of_views (h : w.Inv) (hviews : ∀ c, w'.view c = w.view c)
    (hchannels : w'.channels = w.channels) (hnum : w'.numThreads = w.numThreads)
    (hnext : w'.next = w.next) (hid : w'.nextConnId = w.nextConnId)
    (hgone : w'.server = .gone → w.numThreads = 0)
    (hfits : ∀ c k g, w.conns c = some k → Valid c k (w.view c) g → g.Fits k.loop w.server →
      g.Fits k.loop w'.server) : w'.Inv := by
  have hconns (c : ℕ) : w'.conns c = w.conns c := congrArg View.conn (hviews c)
  have hacc (c : ℕ) : w'.Accepted c ↔ w.Accepted c := by rw [Accepted, Accepted, hid]
  refine ⟨⟨fun c k hk => ?_, fun c hk => ?_, fun c d k k' hk hk' => ?_, fun l fd c hx => ?_, ?_, ?_,
    ?_⟩, fun c k hk => ?_⟩
  · rw [hacc, hnum]
    exact h.conn c k ((hconns c).symm.trans hk)
  · have ha := h.absent c ((hconns c).symm.trans hk)
    rwa [← hviews, ← hacc] at ha
  · exact h.fd c d k k' ((hconns c).symm.trans hk) ((hconns d).symm.trans hk')
  · rw [hchannels] at hx
    rw [hconns]
    exact h.owner l fd c hx
  · rw [hnum, hnext]
    exact h.next
  · rw [hid]
    exact h.pos
  · rw [hnum]
    exact hgone
  · obtain ⟨g, hg, hf⟩ := h.staged c k ((hconns c).symm.trans hk)
    refine ⟨g, ?_, hfits c k g ((hconns c).symm.trans hk) hg hf⟩
    rw [hviews]
    exact hg

/-! ## Who is referenced -/

theorem referenced_of_mapped {w : World} {c : ℕ} (h : (w.view c).mapped ≠ 0) :
    w.referenced c = true := by
  have hmem : c ∈ w.connMap := List.count_pos_iff.mp (Nat.pos_of_ne_zero h)
  simp [referenced, hmem]

theorem referenced_of_queue {w : World} {c l : ℕ} (hl : l ≤ w.numThreads) {f : Functor}
    (hf : f ∈ (w.view c).queue l) (hh : f.holds c = true) : w.referenced c = true := by
  have hmem : f ∈ w.queue l := List.mem_of_mem_filter hf
  have hany : (List.range (w.numThreads + 1)).any
      (fun l => (w.queue l).any (Functor.holds c) || (w.pc l).holds c) = true := by
    refine List.any_eq_true.mpr ⟨l, List.mem_range.mpr (Nat.lt_succ_of_le hl), ?_⟩
    rw [List.any_eq_true.mpr ⟨f, hmem, hh⟩]
    rfl
  rw [referenced, hany, Bool.or_true]

theorem referenced_of_pc {w : World} {c l : ℕ} (hl : l ≤ w.numThreads)
    (hp : ((w.view c).pc l).holds c = true) : w.referenced c = true := by
  have hholds : (w.pc l).holds c = true := by
    by_contra hn
    rw [view] at hp
    simp only [if_neg hn] at hp
    cases hp
  have hany : (List.range (w.numThreads + 1)).any
      (fun l => (w.queue l).any (Functor.holds c) || (w.pc l).holds c) = true := by
    refine List.any_eq_true.mpr ⟨l, List.mem_range.mpr (Nat.lt_succ_of_le hl), ?_⟩
    rw [hholds, Bool.or_true]
  rw [referenced, hany, Bool.or_true]

/-- Until `connectDestroyed` has run, a connection is owned by the server, a functor or a thread. -/
theorem referenced_of_valid {w : World} {c : ℕ} {k : Connection} {g : Stage}
    (h : Valid c k (w.view c) g) (hl : k.loop ≤ w.numThreads) (hg : g ≠ .left) :
    w.referenced c = true := by
  have hmap := h.mapped
  have hown := congrFun h.queue k.loop
  have hbase := congrFun h.queue 0
  cases g with
  | joining => exact referenced_of_mapped (by rw [hmap]; exact Nat.one_ne_zero)
  | up => exact referenced_of_mapped (by rw [hmap]; exact Nat.one_ne_zero)
  | closing => exact referenced_of_mapped (by rw [hmap]; exact Nat.one_ne_zero)
  | removing => exact referenced_of_mapped (by rw [hmap]; exact Nat.one_ne_zero)
  | destroying =>
    refine referenced_of_pc hl ?_
    rw [h.pc]
    simp [Stage.pc, Pc.holds]
  | left => exact absurd rfl hg
  | leftOrphan | removingOrphan =>
    refine referenced_of_queue (f := .removeConnectionInLoop c) (Nat.zero_le _) ?_
      (beq_self_eq_true c)
    rw [hbase]
    simp [Stage.queue]
  | _ =>
    refine referenced_of_queue (f := .connectDestroyed c) hl ?_ (beq_self_eq_true c)
    rw [hown]
    simp [Stage.queue]

end World

end Net

end Muduo
